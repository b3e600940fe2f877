import FastLlm.Spec.SuffixIndex
import Mathlib.Data.Nat.Find
import Mathlib.Data.List.Basic
import Mathlib.Data.List.Range

/-!
# The draft is the longest suffix match

`SuffixIndex` answers a draft from hash chains.  This module states what the
answer is without the chains: among the candidate end positions, the one whose
suffix match with the tail is longest, the most recent on a tie, and the tokens
after it.

The link between the two is the shape of the index.  `Indexed` says that the
head of a hash is the latest end position whose gram has that hash and that the
link of an end position is the one before it with the same hash, so that a walk
from the head visits `endsBelow`, newest first.  `push` and `reset` keep it, and
the walk over a prefix of that list is then an ordinary maximum search.

## Main definitions

* `SuffixMatch`, `matchLen` — the suffix match of an end position with the tail
* `IsDraft` — the brute-force answer over a set of end positions
* `endsBelow`, `tailEnds` — the end positions with a given gram hash
* `Indexed` — the invariant of the chains
* `Op`, `run` — a stream built by `push` and `reset`
-/

namespace FastLlm
namespace SuffixIndex

/-! ## The brute-force answer -/

/-- The `l` tokens that end at `e` are the last `l` tokens of the stream. -/
def SuffixMatch (toks : List Token) (e l : ℕ) : Prop :=
  l ≤ e + 1 ∧ ∀ i < l, tokAt toks (e - i) = tokAt toks (toks.length - 1 - i)

instance (toks : List Token) (e l : ℕ) : Decidable (SuffixMatch toks e l) :=
  inferInstanceAs (Decidable (_ ∧ _))

/-- The longest suffix match at `e`. -/
def matchLen (toks : List Token) (e : ℕ) : ℕ :=
  Nat.findGreatest (SuffixMatch toks e) (e + 1)

/-- An end position of `S` before the last token whose match is long enough. -/
def Candidate (toks : List Token) (S : List ℕ) (minMatch e : ℕ) : Prop :=
  e ∈ S ∧ e + 1 < toks.length ∧ max H minMatch ≤ matchLen toks e

/-- `e` beats `e'`: a longer match, or the same length and not an earlier end. -/
def Beats (toks : List Token) (e e' : ℕ) : Prop :=
  matchLen toks e' < matchLen toks e ∨ matchLen toks e' = matchLen toks e ∧ e' ≤ e

/-- The best candidate of `S`. -/
def BestEnd (toks : List Token) (S : List ℕ) (minMatch e : ℕ) : Prop :=
  Candidate toks S minMatch e ∧ ∀ e', Candidate toks S minMatch e' → Beats toks e e'

/-- `out` is the continuation of the best candidate of `S`, at most `nMax` tokens
of it, and empty when `S` has no candidate. -/
def IsDraft (toks : List Token) (S : List ℕ) (minMatch nMax : ℕ) (out : List Token) : Prop :=
  (∃ e, BestEnd toks S minMatch e ∧ out = (toks.drop (e + 1)).take nMax) ∨
    ((∀ e, ¬ Candidate toks S minMatch e) ∧ out = [])

theorem BestEnd.unique {toks : List Token} {S : List ℕ} {m e e' : ℕ}
    (h : BestEnd toks S m e) (h' : BestEnd toks S m e') : e = e' := by
  have h1 := h.2 e' h'.1
  have h2 := h'.2 e h.1
  simp only [Beats] at h1 h2
  omega

/-- The brute-force answer is determined. -/
theorem IsDraft.unique {toks : List Token} {S : List ℕ} {m nMax : ℕ} {out out' : List Token}
    (h : IsDraft toks S m nMax out) (h' : IsDraft toks S m nMax out') : out = out' := by
  rcases h with ⟨e, he, rfl⟩ | ⟨hno, rfl⟩
  · rcases h' with ⟨e', he', rfl⟩ | ⟨hno', rfl⟩
    · rw [he.unique he']
    · exact absurd he.1 (hno' e)
  · rcases h' with ⟨e', he', rfl⟩ | ⟨_, rfl⟩
    · exact absurd he'.1 (hno e')
    · rfl

/-! ## Suffix matches -/

theorem SuffixMatch.zero (toks : List Token) (e : ℕ) : SuffixMatch toks e 0 :=
  ⟨Nat.zero_le _, fun _ h => absurd h (Nat.not_lt_zero _)⟩

theorem SuffixMatch.mono {toks : List Token} {e l l' : ℕ} (h : SuffixMatch toks e l)
    (hl : l' ≤ l) : SuffixMatch toks e l' :=
  ⟨hl.trans h.1, fun i hi => h.2 i (hi.trans_le hl)⟩

/-- One more token: the match grows exactly when the next pair agrees. -/
theorem SuffixMatch.succ_iff {toks : List Token} {e l : ℕ} (h : SuffixMatch toks e l) :
    SuffixMatch toks e (l + 1) ↔
      l < e + 1 ∧ tokAt toks (e - l) = tokAt toks (toks.length - 1 - l) := by
  constructor
  · intro hs
    exact ⟨hs.1, hs.2 l (Nat.lt_succ_self l)⟩
  · rintro ⟨hle, ht⟩
    refine ⟨hle, fun i hi => ?_⟩
    rcases Nat.lt_succ_iff_lt_or_eq.mp hi with hlt | rfl
    · exact h.2 i hlt
    · exact ht

theorem matchLen_spec (toks : List Token) (e : ℕ) : SuffixMatch toks e (matchLen toks e) :=
  Nat.findGreatest_spec (Nat.zero_le _) (SuffixMatch.zero toks e)

theorem le_matchLen_iff {toks : List Token} {e l : ℕ} :
    l ≤ matchLen toks e ↔ SuffixMatch toks e l := by
  constructor
  · exact (matchLen_spec toks e).mono
  · intro h
    exact Nat.le_findGreatest h.1 h

theorem Candidate.suffixMatch {toks : List Token} {S : List ℕ} {m e : ℕ}
    (h : Candidate toks S m e) : SuffixMatch toks e H :=
  le_matchLen_iff.mp ((le_max_left _ _).trans h.2.2)

theorem Candidate.minMatch_le {toks : List Token} {S : List ℕ} {m e : ℕ}
    (h : Candidate toks S m e) : m ≤ matchLen toks e :=
  (le_max_right _ _).trans h.2.2

/-- The backward extension of a match reaches the longest one. -/
theorem extend_eq_matchLen {toks : List Token} {e : ℕ} (he : e + 1 < toks.length)
    (fuel len : ℕ) (hm : SuffixMatch toks e len) (hf : e + 1 ≤ len + fuel) :
    extend toks e fuel len = matchLen toks e := by
  induction fuel generalizing len with
  | zero =>
    have hle : len ≤ matchLen toks e := le_matchLen_iff.mpr hm
    have hge : matchLen toks e ≤ e + 1 := (matchLen_spec toks e).1
    rw [extend]
    omega
  | succ fuel ih =>
    rw [extend]
    split
    · rename_i h
      exact ih (len + 1) (hm.succ_iff.mpr ⟨h.1, h.2.2⟩) (by omega)
    · rename_i h
      -- the source's second bound is implied by the first, as `e` is not the last position
      have hno : ¬ SuffixMatch toks e (len + 1) := by
        intro hs
        obtain ⟨hlt, ht⟩ := hm.succ_iff.mp hs
        exact h ⟨hlt, by omega, ht⟩
      have hle : len ≤ matchLen toks e := le_matchLen_iff.mpr hm
      have hlt : ¬ len + 1 ≤ matchLen toks e := fun hc => hno (le_matchLen_iff.mp hc)
      omega

/-- The gram comparison decides a suffix match of gram length. -/
theorem gramEq_iff {toks : List Token} {e : ℕ} (he : 2 ≤ e) (hn : H ≤ toks.length) :
    gramEq toks (e + 1 - H) (toks.length - H) = true ↔ SuffixMatch toks e H := by
  simp only [H] at hn
  -- the gram is read forward, the match backward
  have he' (i : ℕ) (hi : i < 3) : e + 1 - 3 + (2 - i) = e - i := by omega
  have hn' (i : ℕ) (hi : i < 3) : toks.length - 3 + (2 - i) = toks.length - 1 - i := by omega
  simp only [gramEq, H, List.all_eq_true, List.mem_range, beq_iff_eq, SuffixMatch]
  constructor
  · intro h
    refine ⟨by omega, fun i hi => ?_⟩
    have ht := h (2 - i) (by omega)
    rwa [he' i hi, hn' i hi] at ht
  · rintro ⟨-, h⟩ i hi
    have ht := h (2 - i) (by omega)
    rw [← he' (2 - i) (by omega), ← hn' (2 - i) (by omega)] at ht
    rwa [Nat.sub_sub_self (by omega)] at ht

theorem gramHash_congr {toks toks' : List Token} {a b : ℕ}
    (h : ∀ i < H, tokAt toks (a + i) = tokAt toks' (b + i)) :
    gramHash toks a = gramHash toks' b := by
  simp only [gramHash]
  apply List.foldl_ext
  intro x i hi
  rw [h i (List.mem_range.mp hi)]

/-- Equal grams have equal hashes. -/
theorem gramHash_of_gramEq {toks : List Token} {a b : ℕ} (h : gramEq toks a b = true) :
    gramHash toks a = gramHash toks b := by
  simp only [gramEq, List.all_eq_true, beq_iff_eq] at h
  exact gramHash_congr fun i hi => h i (List.mem_range.mpr hi)

/-! ## The chains -/

/-- The gram that ends at `e` has hash `h`. -/
def GramAt (toks : List Token) (h : UInt64) (e : ℕ) : Prop :=
  H ≤ e + 1 ∧ gramHash toks (e + 1 - H) = h

instance (toks : List Token) (h : UInt64) (e : ℕ) : Decidable (GramAt toks h e) :=
  inferInstanceAs (Decidable (_ ∧ _))

/-- The end positions below `k` whose gram has hash `h`, newest first. -/
def endsBelow (toks : List Token) (h : UInt64) (k : ℕ) : List ℕ :=
  ((List.range k).filter fun e => decide (GramAt toks h e)).reverse

/-- The end positions whose gram has the hash of the tail gram, newest first; the
tail is the first of them. -/
def tailEnds (toks : List Token) : List ℕ :=
  endsBelow toks (gramHash toks (toks.length - H)) toks.length

/-- The chain pointer to the newest end of a list. -/
def newest (l : List ℕ) : ℤ := l.head?.elim (-1) fun e => (e : ℤ)

@[simp] theorem newest_nil : newest [] = -1 := rfl

@[simp] theorem newest_cons (e : ℕ) (l : List ℕ) : newest (e :: l) = e := rfl

theorem mem_endsBelow {toks : List Token} {h : UInt64} {k e : ℕ} :
    e ∈ endsBelow toks h k ↔ e < k ∧ GramAt toks h e := by
  simp [endsBelow]

theorem endsBelow_succ (toks : List Token) (h : UInt64) (k : ℕ) :
    endsBelow toks h (k + 1) =
      if GramAt toks h k then k :: endsBelow toks h k else endsBelow toks h k := by
  by_cases hk : GramAt toks h k <;> simp [endsBelow, List.range_succ, List.filter_append, hk]

/-- The rest of a chain is the chain below its newest end. -/
theorem endsBelow_eq_cons {toks : List Token} {h : UInt64} {k e : ℕ} {l : List ℕ}
    (hk : endsBelow toks h k = e :: l) :
    e < k ∧ GramAt toks h e ∧ l = endsBelow toks h e := by
  induction k with
  | zero => simp [endsBelow] at hk
  | succ k ih =>
    rw [endsBelow_succ] at hk
    split at hk
    · rename_i hg
      obtain ⟨rfl, rfl⟩ := List.cons.inj hk
      exact ⟨Nat.lt_succ_self _, hg, rfl⟩
    · obtain ⟨hlt, hrest⟩ := ih hk
      exact ⟨hlt.trans (Nat.lt_succ_self k), hrest⟩

theorem length_endsBelow_le (toks : List Token) (h : UInt64) (k : ℕ) :
    (endsBelow toks h k).length ≤ k := by
  simp only [endsBelow, List.length_reverse]
  exact (List.length_filter_le _ _).trans (List.length_range).le

/-- A gram inside the stream is not changed by a token appended to it. -/
theorem gramAt_append {toks : List Token} {t : Token} {h : UInt64} {e : ℕ}
    (he : e < toks.length) : GramAt (toks ++ [t]) h e ↔ GramAt toks h e := by
  have hg (hH : H ≤ e + 1) :
      gramHash (toks ++ [t]) (e + 1 - H) = gramHash toks (e + 1 - H) := by
    apply gramHash_congr
    intro i hi
    have hlt : e + 1 - H + i < toks.length := by omega
    simp [tokAt, List.getD_eq_getElem?_getD, List.getElem?_append_left hlt]
  constructor
  · rintro ⟨hH, hh⟩
    exact ⟨hH, (hg hH).symm.trans hh⟩
  · rintro ⟨hH, hh⟩
    exact ⟨hH, (hg hH).trans hh⟩

theorem endsBelow_append {toks : List Token} {t : Token} {h : UInt64} {k : ℕ}
    (hk : k ≤ toks.length) : endsBelow (toks ++ [t]) h k = endsBelow toks h k := by
  induction k with
  | zero => simp [endsBelow]
  | succ k ih =>
    have hg : GramAt (toks ++ [t]) h k ↔ GramAt toks h k := gramAt_append hk
    rw [endsBelow_succ, endsBelow_succ, ih (by omega), if_congr hg rfl rfl]

/-- The chains of an index: every link and every head points to the newest end
below it with the same gram hash. -/
structure Indexed (s : SuffixIndex) : Prop where
  length_prev : s.prev.length = s.toks.length
  head_eq : ∀ h, (s.head h).getD (-1) = newest (endsBelow s.toks h s.toks.length)
  prev_eq : ∀ h, ∀ e < s.toks.length, GramAt s.toks h e →
    s.prev.getD e (-1) = newest (endsBelow s.toks h e)

theorem indexed_init (c m : ℕ) : Indexed (init c m) where
  length_prev := rfl
  head_eq _ := rfl
  prev_eq _ e he := absurd he (Nat.not_lt_zero e)

theorem Indexed.reset {s : SuffixIndex} (_ : Indexed s) : Indexed s.reset :=
  indexed_init s.chainCap s.minMatch

/-- Appending a token keeps the chains. -/
theorem Indexed.push {s : SuffixIndex} (hs : Indexed s) (t : Token) : Indexed (s.push t) := by
  have hlen := hs.length_prev
  -- the links of the earlier positions stay, whatever the new one is
  have hold (x : ℤ) (h : UInt64) (e : ℕ) (he : e < s.toks.length)
      (hg : GramAt (s.toks ++ [t]) h e) :
      (s.prev ++ [x]).getD e (-1) = newest (endsBelow (s.toks ++ [t]) h e) := by
    rw [List.getD_eq_getElem?_getD, List.getElem?_append_left (by omega),
      ← List.getD_eq_getElem?_getD, endsBelow_append he.le]
    exact hs.prev_eq h e he ((gramAt_append he).mp hg)
  have hlast (x : ℤ) : (s.prev ++ [x]).getD s.toks.length (-1) = x := by
    simp [List.getD_eq_getElem?_getD, ← hlen]
  by_cases hn : s.toks.length + 1 < H
  · have hpush : s.push t = { s with toks := s.toks ++ [t], prev := s.prev ++ [-1] } := by
      simp [SuffixIndex.push, hn]
    have hno (h : UInt64) : ¬ GramAt (s.toks ++ [t]) h s.toks.length := fun hg => by
      have := hg.1
      omega
    rw [hpush]
    refine ⟨by simp [hlen], fun h => ?_, fun h e he hg => ?_⟩
    · simp only [List.length_append, List.length_singleton]
      rw [endsBelow_succ, if_neg (hno h), endsBelow_append (le_refl _)]
      exact hs.head_eq h
    · simp only [List.length_append, List.length_singleton] at he
      rcases Nat.lt_succ_iff_lt_or_eq.mp he with hlt | rfl
      · exact hold (-1) h e hlt hg
      · exact absurd hg (hno h)
  · have hgram (h : UInt64) : GramAt (s.toks ++ [t]) h s.toks.length ↔
        gramHash (s.toks ++ [t]) (s.toks.length + 1 - H) = h :=
      ⟨fun hg => hg.2, fun hh => ⟨by omega, hh⟩⟩
    simp only [SuffixIndex.push, List.length_append, List.length_singleton, hn, if_false]
    refine ⟨by simp [hlen], fun h => ?_, fun h e he hg => ?_⟩
    · simp only [List.length_append, List.length_singleton]
      rw [endsBelow_succ, endsBelow_append (le_refl _)]
      by_cases hh : h = gramHash (s.toks ++ [t]) (s.toks.length + 1 - H)
      · rw [if_pos hh, if_pos ((hgram h).mpr hh.symm)]
        simp
      · rw [if_neg hh, if_neg fun hg => hh ((hgram h).mp hg).symm]
        exact hs.head_eq h
    · simp only [List.length_append, List.length_singleton] at he
      rcases Nat.lt_succ_iff_lt_or_eq.mp he with hlt | rfl
      · exact hold _ h e hlt hg
      · rw [hlast, (hgram h).mp hg, endsBelow_append (le_refl _)]
        exact hs.head_eq h

/-! ## The walk -/

/-- What the walk does at one end position of the chain. -/
def visit (toks : List Token) (best : ℤ × ℕ) (e : ℕ) : ℤ × ℕ :=
  if e + 1 < toks.length ∧ SuffixMatch toks e H ∧ best.2 < matchLen toks e then
    (e, matchLen toks e)
  else best

/-- The walk from the newest end below `k` visits the chain below `k`, as far as
the cap goes. -/
theorem walk_eq_foldl {s : SuffixIndex} (hs : Indexed s) (h : UInt64) (cap k : ℕ)
    (hk : k ≤ s.toks.length) (best : ℤ × ℕ) :
    walk s cap (newest (endsBelow s.toks h k)) best =
      ((endsBelow s.toks h k).take cap).foldl (visit s.toks) best := by
  induction cap generalizing k best with
  | zero => simp [walk]
  | succ cap ih =>
    cases hc : endsBelow s.toks h k with
    | nil => simp [walk]
    | cons e l =>
      obtain ⟨hek, hg, rfl⟩ := endsBelow_eq_cons hc
      have hen : e < s.toks.length := hek.trans_le hk
      have hH : H ≤ e + 1 := hg.1
      have hnext : s.prev.getD e (-1) = newest (endsBelow s.toks h e) := hs.prev_eq h e hen hg
      have hrec (b : ℤ × ℕ) := ih e hen.le b
      have hneg : ¬ (e : ℤ) < 0 := by omega
      simp only [List.take_succ_cons, List.foldl_cons, newest_cons, walk, hneg, if_false,
        Int.toNat_natCast, hnext]
      by_cases htail : e = s.toks.length - 1
      · -- the tail itself is a step of the walk, but not a candidate
        have hlt : ¬ e + 1 < s.toks.length := by omega
        rw [if_pos htail, hrec, visit, if_neg fun hv => hlt hv.1]
      · have hlt : e + 1 < s.toks.length := by omega
        have hgram : gramEq s.toks (e + 1 - H) (s.toks.length - H) = true ↔
            SuffixMatch s.toks e H := gramEq_iff (by simp only [H] at hH; omega) (by omega)
        rw [if_neg htail]
        by_cases heq : gramEq s.toks (e + 1 - H) (s.toks.length - H) = true
        · have hm : SuffixMatch s.toks e H := hgram.mp heq
          have hext : extend s.toks e s.toks.length H = matchLen s.toks e :=
            extend_eq_matchLen hlt _ _ hm (by omega)
          have hvisit : visit s.toks best e =
              if best.2 < matchLen s.toks e then ((e : ℤ), matchLen s.toks e) else best := by
            simp [visit, hlt, hm]
          rw [hvisit, ← hrec]
          simp [heq, hext]
        · have hm : ¬ SuffixMatch s.toks e H := fun hm => heq (hgram.mpr hm)
          rw [if_pos (by simp [heq]), hrec, visit, if_neg fun hv => hm hv.2.1]

/-- What a search has kept after the ends `seen`: nothing, or the newest of the
longest matches. -/
def Kept (toks : List Token) (seen : List ℕ) (best : ℤ × ℕ) : Prop :=
  (best = (-1, 0) ∧ ∀ e ∈ seen, e + 1 < toks.length → ¬ SuffixMatch toks e H) ∨
    ∃ b ∈ seen, b + 1 < toks.length ∧ SuffixMatch toks b H ∧ best = ((b : ℤ), matchLen toks b) ∧
      ∀ e ∈ seen, e + 1 < toks.length → SuffixMatch toks e H → Beats toks b e

/-- One visit keeps it, when the new end is below all the earlier ones. -/
theorem Kept.visit {toks : List Token} {seen : List ℕ} {best : ℤ × ℕ}
    (hk : Kept toks seen best) {e : ℕ} (he : ∀ e' ∈ seen, e < e') :
    Kept toks (seen ++ [e]) (visit toks best e) := by
  have hmem (x : ℕ) : x ∈ seen ++ [e] ↔ x ∈ seen ∨ x = e := by simp
  rw [SuffixIndex.visit]
  split
  · rename_i hv
    obtain ⟨hlt, hm, hlen⟩ := hv
    right
    refine ⟨e, (hmem e).mpr (Or.inr rfl), hlt, hm, rfl, fun x hx hxlt hxm => ?_⟩
    rcases (hmem x).mp hx with hx | rfl
    · rcases hk with ⟨-, hno⟩ | ⟨b, _, _, _, hb, hall⟩
      · exact absurd hxm (hno x hx hxlt)
      · have hbx := hall x hx hxlt hxm
        rw [hb] at hlen
        simp only [Beats] at hbx ⊢
        omega
    · exact Or.inr ⟨rfl, le_refl _⟩
  · rename_i hv
    rcases hk with ⟨rfl, hno⟩ | ⟨b, hbs, hblt, hbm, rfl, hall⟩
    · left
      refine ⟨rfl, fun x hx hxlt hxm => ?_⟩
      rcases (hmem x).mp hx with hx | rfl
      · exact hno x hx hxlt hxm
      · -- a match of gram length is longer than nothing
        have hpos : H ≤ matchLen toks x := le_matchLen_iff.mpr hxm
        simp only [H] at hpos
        exact hv ⟨hxlt, hxm, by omega⟩
    · right
      refine ⟨b, (hmem b).mpr (Or.inl hbs), hblt, hbm, rfl, fun x hx hxlt hxm => ?_⟩
      rcases (hmem x).mp hx with hx | rfl
      · exact hall x hx hxlt hxm
      · have hle : ¬ matchLen toks b < matchLen toks x := fun hc => hv ⟨hxlt, hxm, hc⟩
        have hxb : x < b := he b hbs
        simp only [Beats]
        omega

/-- The whole search, over ends that come newest first. -/
theorem kept_foldl {toks : List Token} (l seen : List ℕ) (best : ℤ × ℕ)
    (hk : Kept toks seen best) (hsort : (seen ++ l).Pairwise (· > ·)) :
    Kept toks (seen ++ l) (l.foldl (visit toks) best) := by
  induction l generalizing seen best with
  | nil => simpa using hk
  | cons e l ih =>
    have hlt : ∀ e' ∈ seen, e < e' := fun e' he' =>
      (List.pairwise_append.mp hsort).2.2 e' he' e List.mem_cons_self
    have hassoc : seen ++ e :: l = (seen ++ [e]) ++ l := by simp
    rw [hassoc] at hsort ⊢
    rw [List.foldl_cons]
    exact ih (seen ++ [e]) (visit toks best e) (hk.visit hlt) hsort

theorem pairwise_endsBelow (toks : List Token) (h : UInt64) (k : ℕ) :
    (endsBelow toks h k).Pairwise (· > ·) := by
  rw [endsBelow, List.pairwise_reverse]
  exact List.pairwise_lt_range.filter _

/-! ## The draft -/

/-- What a search over `S` kept gives the brute-force answer over `S`. -/
theorem Kept.isDraft {toks : List Token} {S : List ℕ} {best : ℤ × ℕ} (hk : Kept toks S best)
    (minMatch nMax : ℕ) :
    IsDraft toks S minMatch nMax (if best.1 < 0 ∨ best.2 < minMatch then []
      else (toks.drop (best.1.toNat + 1)).take nMax) := by
  rcases hk with ⟨rfl, hno⟩ | ⟨b, hbS, hblt, hbm, rfl, hall⟩
  · right
    refine ⟨fun e he => ?_, by simp⟩
    exact hno e he.1 he.2.1 (he.suffixMatch)
  · by_cases hmin : matchLen toks b < minMatch
    · right
      refine ⟨fun e he => ?_, by simp [hmin]⟩
      -- the longest match is too short, so every match is
      have hbe := hall e he.1 he.2.1 (he.suffixMatch)
      have hlen := he.minMatch_le
      simp only [Beats] at hbe
      omega
    · left
      have hcand : Candidate toks S minMatch b :=
        ⟨hbS, hblt, max_le (le_matchLen_iff.mpr hbm) (not_lt.mp hmin)⟩
      refine ⟨b, ⟨hcand, fun e he => ?_⟩, by simp [hmin]⟩
      exact hall e he.1 he.2.1 (he.suffixMatch)

/-- No candidate fits in a stream shorter than a gram. -/
theorem not_candidate_of_short {toks : List Token} (hn : toks.length < H) {S : List ℕ}
    {m e : ℕ} : ¬ Candidate toks S m e := by
  intro he
  have hH : H ≤ e + 1 := he.suffixMatch.1
  have hlt : e + 1 < toks.length := he.2.1
  omega

/-- Over indexed chains, the draft is the brute-force answer over the `chainCap`
newest ends of the tail's hash. -/
theorem Indexed.isDraft {s : SuffixIndex} (hs : Indexed s) (nMax : ℕ) :
    IsDraft s.toks ((tailEnds s.toks).take s.chainCap) s.minMatch nMax (s.draft nMax) := by
  have hkept : Kept s.toks ((tailEnds s.toks).take s.chainCap)
      (((tailEnds s.toks).take s.chainCap).foldl (visit s.toks) (-1, 0)) := by
    have hsort : ((tailEnds s.toks).take s.chainCap).Pairwise (· > ·) :=
      (pairwise_endsBelow _ _ _).sublist (List.take_sublist _ _)
    have hnil : Kept s.toks [] (-1, 0) := Or.inl ⟨rfl, fun _ h => absurd h List.not_mem_nil⟩
    simpa using kept_foldl _ [] (-1, 0) hnil hsort
  by_cases hn : s.toks.length < H
  · simp only [draft, hn, true_or, if_true]
    exact Or.inr ⟨fun e => not_candidate_of_short hn, rfl⟩
  · have hans := hkept.isDraft s.minMatch nMax
    have hhead := hs.head_eq (gramHash s.toks (s.toks.length - H))
    have hwalk := walk_eq_foldl hs (gramHash s.toks (s.toks.length - H)) s.chainCap
      s.toks.length (le_refl _) (-1, 0)
    by_cases hz : nMax = 0
    · subst hz
      simpa [draft] using hans
    · simp only [draft, hn, hz, or_self, if_false]
      cases hc : s.head (gramHash s.toks (s.toks.length - H)) with
      | none =>
        -- an empty chain: the walk of the specification kept nothing either
        rw [hc] at hhead
        have hnil : tailEnds s.toks = [] := by
          cases he : tailEnds s.toks with
          | nil => rfl
          | cons e l =>
            rw [tailEnds] at he
            rw [he] at hhead
            simp at hhead
        simpa [hnil] using hans
      | some e =>
        rw [hc] at hhead
        rw [← hhead] at hwalk
        simp only [Option.getD_some] at hwalk
        simp only [hwalk]
        exact hans

/-- A chain cap that covers the stream leaves no candidate out. -/
theorem candidate_tailEnds_iff {toks : List Token} {c m e : ℕ} (hc : toks.length ≤ c) :
    Candidate toks ((tailEnds toks).take c) m e ↔ Candidate toks (List.range toks.length) m e := by
  have htake : (tailEnds toks).take c = tailEnds toks :=
    List.take_of_length_le ((length_endsBelow_le _ _ _).trans hc)
  rw [htake]
  constructor
  · rintro ⟨-, hlt, hlen⟩
    exact ⟨List.mem_range.mpr (by omega), hlt, hlen⟩
  · intro he
    have hm : SuffixMatch toks e H := he.suffixMatch
    obtain ⟨-, hlt, hlen⟩ := he
    have hH : H ≤ e + 1 := hm.1
    have heq := (gramEq_iff (by simp only [H] at hH; omega) (by omega)).mpr hm
    exact ⟨mem_endsBelow.mpr ⟨by omega, hH, gramHash_of_gramEq heq⟩, hlt, hlen⟩

theorem isDraft_congr {toks : List Token} {S S' : List ℕ} {m nMax : ℕ} {out : List Token}
    (h : ∀ e, Candidate toks S m e ↔ Candidate toks S' m e) (hd : IsDraft toks S m nMax out) :
    IsDraft toks S' m nMax out := by
  simpa only [IsDraft, BestEnd, h] using hd

/-! ## Streams -/

/-- The two operations that change an index. -/
inductive Op where
  | push (t : Token)
  | reset

/-- One operation. -/
def step (s : SuffixIndex) : Op → SuffixIndex
  | .push t => s.push t
  | .reset => s.reset

/-- A stream built from an empty index. -/
def run (chainCap minMatch : ℕ) (ops : List Op) : SuffixIndex :=
  ops.foldl step (init chainCap minMatch)

theorem indexed_step {s : SuffixIndex} (hs : Indexed s) (op : Op) : Indexed (step s op) := by
  cases op with
  | push t => exact hs.push t
  | reset => exact hs.reset

/-- The chains are right after every run. -/
theorem indexed_run (chainCap minMatch : ℕ) (ops : List Op) :
    Indexed (run chainCap minMatch ops) := by
  induction ops using List.reverseRecOn with
  | nil => exact indexed_init chainCap minMatch
  | append_singleton ops op ih =>
    rw [run, List.foldl_append]
    exact indexed_step ih op

theorem bounds_step (s : SuffixIndex) (op : Op) :
    (step s op).chainCap = s.chainCap ∧ (step s op).minMatch = s.minMatch := by
  cases op with
  | push t =>
    simp only [step, SuffixIndex.push]
    split <;> exact ⟨rfl, rfl⟩
  | reset => exact ⟨rfl, rfl⟩

/-- The bounds of the constructor stay for the whole run. -/
theorem bounds_run (chainCap minMatch : ℕ) (ops : List Op) :
    (run chainCap minMatch ops).chainCap = chainCap ∧
      (run chainCap minMatch ops).minMatch = minMatch := by
  induction ops using List.reverseRecOn with
  | nil => exact ⟨rfl, rfl⟩
  | append_singleton ops op ih =>
    have hstep := bounds_step (run chainCap minMatch ops) op
    have hrun : run chainCap minMatch (ops ++ [op]) = step (run chainCap minMatch ops) op := by
      rw [run, List.foldl_append]
      rfl
    rw [hrun]
    exact ⟨hstep.1.trans ih.1, hstep.2.trans ih.2⟩

/-- After every run, for every cap, minimum match and request, the draft is the
brute-force answer over the `chainCap` newest ends of the tail's hash; and when
the cap covers the stream, it is the brute-force answer over all positions.  A
request that is not positive asks for nothing. -/
theorem draft_eq_brute_force (chainCap minMatch : ℕ) (ops : List Op) (nMax : ℤ) :
    IsDraft (run chainCap minMatch ops).toks
        ((tailEnds (run chainCap minMatch ops).toks).take chainCap) minMatch nMax.toNat
        ((run chainCap minMatch ops).draft nMax.toNat) ∧
      ((run chainCap minMatch ops).toks.length ≤ chainCap →
        IsDraft (run chainCap minMatch ops).toks
          (List.range (run chainCap minMatch ops).toks.length) minMatch nMax.toNat
          ((run chainCap minMatch ops).draft nMax.toNat)) := by
  obtain ⟨hcap, hmin⟩ := bounds_run chainCap minMatch ops
  have hdraft := (indexed_run chainCap minMatch ops).isDraft nMax.toNat
  rw [hcap, hmin] at hdraft
  refine ⟨hdraft, fun hlen => ?_⟩
  exact isDraft_congr (fun e => candidate_tailEnds_iff hlen) hdraft

/-- A stream that ends in a gram it has seen, under a cap that covers it. -/
theorem draft_eq_brute_force_echo :
    let s := run 8 3 ([5, 6, 7, 8, 5, 6, 7].map Op.push)
    s.toks.length ≤ 8 ∧
      IsDraft s.toks (List.range s.toks.length) 3 2 (s.draft 2) ∧ s.draft 2 = [8, 5] := by
  intro s
  have hlen : s.toks.length ≤ 8 := by decide +kernel
  exact ⟨hlen, (draft_eq_brute_force 8 3 ([5, 6, 7, 8, 5, 6, 7].map Op.push) 2).2 hlen,
    by decide +kernel⟩

end SuffixIndex
end FastLlm
