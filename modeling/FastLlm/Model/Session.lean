import FastLlm.Model.PassValues
import FastLlm.Tools.DecodeLoop

/-!
# Passes with truncated experts

`FASTLLM_APPROX_K` makes the intermediate positions of a batch run fewer experts than the router
selects; the first position and the last keep all of them, so that their answers would be those of
the exact graph.  Here a decoder is followed over any sequence of calls, beside an exact one.

The answer of a position depends on every cache row it attends to.  A truncated position appends a
wrong row to each layer behind its first truncated merge, and so does, through these rows, every
position behind it in the batch, the last one with them.  Such a row stays in the cache as long as
its position is held.  The answers are exact as long as no truncated merge has a layer behind it
(`outs_eq_exact`), and wrong otherwise (`last_out_not_exact`).

## Main definitions

* `Session`, `Session.stepBatch`, `Session.rewindTo`, `Session.reset` — the decoder between calls.
* `Call`, `runCalls` — sequences of calls.
* `Decoder.Spreads` — a truncated merge with a layer behind it.
* `Ledger` — the tokens held, and how many of them were decided exactly.
* `truth` — the residual streams of the exact graph, by the tokens alone.
-/

namespace FastLlm

/-! ## The decoder between calls -/

/-- What a decoder keeps between two calls. -/
structure Session where
  nPast : ℕ
  kv : KvCache

namespace Session
variable (N : Numerics) (D : Decoder)

/-- The draft hint of position `p`: the next token fed. -/
def hint (toks : List Token) (p : ℕ) : Token := if p + 1 < toks.length then toks.getD (p + 1) 0 else -1

/-- The residual streams a pass begins with. -/
def embedAll (toks : List Token) : ℕ → List Word := fun p => Pass.embed N D (toks.getD p 0)

def stepBatch (maxBatch : ℕ) (s : Session) (toks : List Token) :
    Except Abort (List Token × Session) :=
  if toks.length < 1 ∨ maxBatch < toks.length then .error (.badBatch toks.length maxBatch)
  else if D.o.maxKv.toInt32.toInt < (s.nPast : ℤ) + toks.length then
    .error (.kvFull s.nPast toks.length D.o.maxKv.toInt32.toInt)
  else
    let r := Pass.run N D toks.length s.nPast (embedAll N D toks) s.kv
    .ok ((List.range toks.length).map fun p => Pass.pick N D (r.1 p) (hint toks p),
      ⟨s.nPast + toks.length, r.2⟩)

/-- The rows of the tail stay in the cache. -/
def rewindTo (s : Session) (pos : ℤ) : Except Abort Session :=
  if pos < 0 ∨ (s.nPast : ℤ) < pos then .error (.badRewind pos s.nPast)
  else .ok { s with nPast := pos.toNat }

def reset (s : Session) : Session := { s with nPast := 0 }

end Session

/-- What a caller asks of a decoder. -/
inductive Call
  | step (toks : List Token)
  | rewind (pos : ℤ)
  | reset
  deriving DecidableEq, Repr

/-- The tokens of a batch. -/
def Call.toks : Call → List Token
  | step toks => toks
  | _ => []

/-- The decoder after a call. -/
def Session.call (N : Numerics) (D : Decoder) (maxBatch : ℕ) (s : Session) :
    Call → Except Abort Session
  | .step toks => do
      let r ← s.stepBatch N D maxBatch toks
      pure r.2
  | .rewind pos => s.rewindTo pos
  | .reset => pure s.reset

/-- The decoder after some calls, from a cache with any contents. -/
def runCalls (N : Numerics) (D : Decoder) (maxBatch : ℕ) (kv : KvCache) (cs : List Call) :
    Except Abort Session :=
  cs.foldlM (Session.call N D maxBatch) ⟨0, kv⟩

/-! ## What is exact -/

/-- The decoder without `FASTLLM_APPROX_K`. -/
def Decoder.exact (D : Decoder) : Decoder := { D with o := { D.o with approxK := 0 } }

/-- A batch of `m` truncates a position in a layer with a layer behind it. -/
def Decoder.Spreads (D : Decoder) (m : ℕ) : Prop :=
  D.o.approxK ≠ 0 ∧ D.o.approxK < D.hp.nUsed ∧ 2 < m ∧ D.hp.nDenseLead.toNat + 1 < D.hp.nLayer.toNat

instance (D : Decoder) (m : ℕ) : Decidable (D.Spreads m) := by
  unfold Decoder.Spreads
  infer_instance

/-- The logical token sequence, and how many positions at its front were fed at a time when all
before them were exact, by a batch that did not truncate or at its position 0. -/
structure Ledger where
  held : List Token
  exact : ℕ
  deriving DecidableEq, Repr

namespace Ledger

/-- Every position held is exact. -/
def Clean (g : Ledger) : Prop := g.exact = g.held.length

instance (g : Ledger) : Decidable g.Clean := by
  unfold Clean
  infer_instance

def call (D : Decoder) (g : Ledger) : Call → Ledger
  | .step toks =>
      ⟨g.held ++ toks,
        if g.Clean then g.held.length + (if D.Spreads toks.length then 1 else toks.length)
        else g.exact⟩
  | .rewind pos => ⟨g.held.take pos.toNat, min g.exact pos.toNat⟩
  | .reset => ⟨[], 0⟩

/-- The ledger after some calls. -/
def after (D : Decoder) (cs : List Call) : Ledger := cs.foldl (call D) ⟨[], 0⟩

end Ledger

/-- The residual stream that enters layer `l` for the last of the tokens `ts`, in the exact
graph. -/
def truth (N : Numerics) (D : Decoder) : ℕ → List Token → List Word
  | 0, ts => Pass.embed N D (ts.getD (ts.length - 1) 0)
  | l + 1, ts =>
      Pass.block N D l (ts.length - 1) D.hp.nUsed (truth N D l ts)
        ((List.range ts.length).map fun j => (Pass.project N D l j (truth N D l (ts.take (j + 1)))).row)

/-- The cache row of position `j` of `ts`. -/
def trueRow (N : Numerics) (D : Decoder) (l : ℕ) (ts : List Token) (j : ℕ) : KvRow :=
  (Pass.project N D l j (truth N D l (ts.take (j + 1)))).row

theorem truth_succ (N : Numerics) (D : Decoder) (l : ℕ) (ts : List Token) :
    truth N D (l + 1) ts = Pass.block N D l (ts.length - 1) D.hp.nUsed (truth N D l ts)
      ((List.range ts.length).map (trueRow N D l ts)) := rfl

theorem trueRow_congr {N : Numerics} {D : Decoder} {l j : ℕ} {ts ts' : List Token}
    (h : ts.take (j + 1) = ts'.take (j + 1)) : trueRow N D l ts j = trueRow N D l ts' j := by
  rw [trueRow, trueRow, h]

/-! ## One pass -/

namespace Build
variable {D : Decoder} {m p : ℕ}

theorem expertsAt_zero : expertsAt D m 0 = D.hp.nUsed := by simp [expertsAt]

theorem expertsAt_last : expertsAt D m (m - 1) = D.hp.nUsed := by simp [expertsAt]

theorem expertsAt_of (h : ¬ (D.o.approxK ≠ 0 ∧ D.o.approxK < D.hp.nUsed ∧ 2 < m)) :
    expertsAt D m p = D.hp.nUsed := by
  rw [expertsAt, if_neg]
  intro hk
  exact h ⟨hk.1, hk.2.2.2.2, hk.2.1⟩

end Build

namespace Pass
variable {N : Numerics} {D : Decoder}

/-- A dense layer has no experts to truncate. -/
theorem block_dense {l pos : ℕ} (hl : l < D.hp.nDenseLead.toNat) (ku ku' : UInt32) (x : List Word)
    (rows : List KvRow) : block N D l pos ku x rows = block N D l pos ku' x rows := by
  simp only [block, ffn, if_pos hl]

section
variable {m nPast : ℕ} {x : ℕ → List Word} {kv : KvCache}

theorem layers_kv_succ (n : ℕ) : (layers N D m nPast x kv (n + 1)).2 =
    Function.update (layers N D m nPast x kv n).2 n
      (appended N D m nPast n (layers N D m nPast x kv n).1 (layers N D m nPast x kv n).2) := rfl

/-- A layer whose turn has not come is as the pass found it. -/
theorem layers_kv_ge {n l : ℕ} (h : n ≤ l) : (layers N D m nPast x kv n).2 l = kv l := by
  induction n with
  | zero => rfl
  | succ n ih =>
    rw [layers_kv_succ, Function.update_of_ne (by omega)]
    exact ih (by omega)

/-- The rows of a layer are those it had when it was run. -/
theorem layers_kv_lt {n l : ℕ} (h : l < n) :
    (layers N D m nPast x kv n).2 l = appended N D m nPast l (layers N D m nPast x kv l).1 kv := by
  induction n with
  | zero => omega
  | succ n ih =>
    rw [layers_kv_succ]
    by_cases hl : l = n
    · subst hl
      have hkv : (layers N D m nPast x kv l).2 l = kv l := layers_kv_ge le_rfl
      rw [Function.update_self]
      funext j
      rw [appended, appended, hkv]
    · rw [Function.update_of_ne hl]
      exact ih (by omega)

/-- A row before the batch stays. -/
theorem run_kv_old {l j : ℕ} (hj : j < nPast) : (run N D m nPast x kv).2 l j = kv l j := by
  change (layers N D m nPast x kv D.hp.nLayer.toNat).2 l j = kv l j
  rcases Nat.lt_or_ge l D.hp.nLayer.toNat with hl | hl
  · rw [layers_kv_lt hl, appended, if_neg (by omega)]
  · rw [layers_kv_ge hl]

end

variable {held toks : List Token} {kv : KvCache}

/-- The streams of a pass behind `held`. -/
def streams (N : Numerics) (D : Decoder) (held toks : List Token) (kv : KvCache) (l : ℕ) :
    ℕ → List Word :=
  (layers N D toks.length held.length (Session.embedAll N D toks) kv l).1

/-- The streams of the first `P` positions are true at layer `l`. -/
def StreamsTrue (N : Numerics) (D : Decoder) (held toks : List Token) (kv : KvCache) (l P : ℕ) :
    Prop :=
  ∀ p < P, streams N D held toks kv l p = truth N D l (held ++ toks.take (p + 1))

/-- The rows of the positions before the batch are true. -/
def RowsTrue (N : Numerics) (D : Decoder) (ts : List Token) (n : ℕ) (kv : KvCache) : Prop :=
  ∀ l < D.hp.nLayer.toNat, ∀ j < n, kv l j = trueRow N D l ts j

theorem take_append_of_lt {j : ℕ} (hj : j < held.length) :
    (held ++ toks).take (j + 1) = held.take (j + 1) :=
  List.take_append_of_le_length hj

theorem streamsTrue_zero {P : ℕ} (hP : P ≤ toks.length) : StreamsTrue N D held toks kv 0 P := by
  intro p hp
  have hlen : (held ++ toks.take (p + 1)).length - 1 = held.length + p := by
    simp
    omega
  rw [truth, hlen, List.getD_append_right _ _ _ _ (by omega)]
  change embed N D (toks.getD p 0) = _
  congr 1
  simp [List.getD_eq_getElem?_getD]

variable {l P : ℕ}

/-- True streams append true rows. -/
theorem StreamsTrue.row (hs : StreamsTrue N D held toks kv l P) (hP : P ≤ toks.length)
    (hkv : RowsTrue N D held held.length kv) (hl : l < D.hp.nLayer.toNat) {j : ℕ}
    (hj : j < held.length + P) :
    appended N D toks.length held.length l (streams N D held toks kv l) kv j =
      trueRow N D l (held ++ toks) j := by
  rw [appended]
  split_ifs with h
  · have htake : (held ++ toks).take (j + 1) = held ++ toks.take (j - held.length + 1) := by
      rw [List.take_append, List.take_of_length_le (by omega)]
      congr 2
      omega
    rw [hs _ (by omega), trueRow, htake]
  · have hlt : j < held.length := by omega
    rw [hkv l hl j hlt]
    exact trueRow_congr (take_append_of_lt hlt).symm

/-- A layer that truncates nothing at `p` keeps the stream of `p` true. -/
theorem StreamsTrue.succ (hs : StreamsTrue N D held toks kv l P) (hP : P ≤ toks.length)
    (hkv : RowsTrue N D held held.length kv) (hl : l < D.hp.nLayer.toNat) {p : ℕ} (hp : p < P)
    (hku : l < D.hp.nDenseLead.toNat ∨ Build.expertsAt D toks.length p = D.hp.nUsed) :
    streams N D held toks kv (l + 1) p = truth N D (l + 1) (held ++ toks.take (p + 1)) := by
  have hlen : (held ++ toks.take (p + 1)).length = held.length + p + 1 := by
    simp
    omega
  have hrows : (List.range (held.length + p + 1)).map
      (appended N D toks.length held.length l (streams N D held toks kv l) kv) =
      (List.range (held.length + p + 1)).map (trueRow N D l (held ++ toks.take (p + 1))) := by
    apply List.map_congr_left
    intro j hj
    have hj : j < held.length + p + 1 := List.mem_range.mp hj
    rw [hs.row hP hkv hl (by omega)]
    apply trueRow_congr
    rw [List.take_append, List.take_append, List.take_take]
    congr 2
    omega
  have hkvl : appended N D toks.length held.length l (streams N D held toks kv l)
      (layers N D toks.length held.length (Session.embedAll N D toks) kv l).2 =
      appended N D toks.length held.length l (streams N D held toks kv l) kv := by
    funext j
    rw [appended, appended, layers_kv_ge le_rfl]
  calc streams N D held toks kv (l + 1) p
      = block N D l (held.length + p) (Build.expertsAt D toks.length p) (streams N D held toks kv l p)
          ((List.range (held.length + p + 1)).map
            (appended N D toks.length held.length l (streams N D held toks kv l) kv)) := by
        rw [← hkvl]
        rfl
    _ = block N D l (held.length + p) D.hp.nUsed (streams N D held toks kv l p)
          ((List.range (held.length + p + 1)).map
            (appended N D toks.length held.length l (streams N D held toks kv l) kv)) := by
        rcases hku with hd | hku
        · exact block_dense hd ..
        · rw [hku]
    _ = truth N D (l + 1) (held ++ toks.take (p + 1)) := by
        rw [hs p hp, hrows, truth_succ, hlen]
        rfl

/-- No layer but the last truncates one of the first `P` positions. -/
def ExactUpTo (D : Decoder) (m P : ℕ) : Prop :=
  ∀ l, l + 1 < D.hp.nLayer.toNat → ∀ p < P,
    l < D.hp.nDenseLead.toNat ∨ Build.expertsAt D m p = D.hp.nUsed

theorem streamsTrue (hP : P ≤ toks.length) (hkv : RowsTrue N D held held.length kv)
    (hx : ExactUpTo D toks.length P) (hl : l < D.hp.nLayer.toNat) :
    StreamsTrue N D held toks kv l P := by
  induction l with
  | zero => exact streamsTrue_zero hP
  | succ l ih =>
    intro p hp
    exact (ih (by omega)).succ hP hkv (by omega) hp (hx l hl p hp)

/-- The rows of the first `P` positions of the batch are true after the pass. -/
theorem run_rows (hP : P ≤ toks.length) (hkv : RowsTrue N D held held.length kv)
    (hx : ExactUpTo D toks.length P) :
    RowsTrue N D (held ++ toks) (held.length + P)
      (run N D toks.length held.length (Session.embedAll N D toks) kv).2 := by
  intro l hl j hj
  change (layers N D toks.length held.length _ kv D.hp.nLayer.toNat).2 l j = _
  rw [layers_kv_lt hl]
  exact (streamsTrue hP hkv hx hl).row hP hkv hl hj

/-- So is the final norm of one of them that is not truncated itself. -/
theorem run_norm (hP : P ≤ toks.length) (hkv : RowsTrue N D held held.length kv)
    (hx : ExactUpTo D toks.length P) {p : ℕ} (hp : p < P)
    (hku : Build.expertsAt D toks.length p = D.hp.nUsed) :
    (run N D toks.length held.length (Session.embedAll N D toks) kv).1 p =
      rmsNorm N D (weight D .outputNorm) (truth N D D.hp.nLayer.toNat (held ++ toks.take (p + 1)))
        D.hp.nEmbd.toNat := by
  have hstream : streams N D held toks kv D.hp.nLayer.toNat p =
      truth N D D.hp.nLayer.toNat (held ++ toks.take (p + 1)) := by
    cases hn : D.hp.nLayer.toNat with
    | zero => exact streamsTrue_zero hP p hp
    | succ l => exact (streamsTrue hP hkv hx (by omega)).succ hP hkv (by omega) hp (.inr hku)
  rw [← hstream]
  rfl

end Pass

/-! ## Runs -/

section
variable {N : Numerics} {D : Decoder} {maxBatch : ℕ}

/-- The positions of a batch that leave true rows. -/
def Decoder.trueRows (D : Decoder) (m : ℕ) : ℕ := if D.Spreads m then 1 else m

theorem Decoder.trueRows_le {m : ℕ} (hm : 1 ≤ m) : D.trueRows m ≤ m := by
  rw [Decoder.trueRows]
  split_ifs
  · exact hm
  · exact le_rfl

theorem exactUpTo_trueRows (m : ℕ) : Pass.ExactUpTo D m (D.trueRows m) := by
  intro l hl p hp
  rw [Decoder.trueRows] at hp
  split_ifs at hp with hs
  · have hp0 : p = 0 := by omega
    rw [hp0]
    exact .inr Build.expertsAt_zero
  · by_cases hdense : l < D.hp.nDenseLead.toNat
    · exact .inl hdense
    · refine .inr (Build.expertsAt_of fun hk => hs ⟨hk.1, hk.2.1, hk.2.2, by omega⟩)

/-- The decoder is where the ledger says. -/
structure Ledger.Agrees (N : Numerics) (D : Decoder) (g : Ledger) (s : Session) : Prop where
  nPast : s.nPast = g.held.length
  exact_le : g.exact ≤ g.held.length
  rows : Pass.RowsTrue N D g.held g.exact s.kv

/-- Rows of a longer sequence. -/
theorem Pass.RowsTrue.append {ts : List Token} {n : ℕ} {kv : KvCache}
    (h : Pass.RowsTrue N D ts n kv) (hn : n ≤ ts.length) (toks : List Token) :
    Pass.RowsTrue N D (ts ++ toks) n kv := by
  intro l hl j hj
  rw [h l hl j hj]
  exact trueRow_congr (Pass.take_append_of_lt (by omega)).symm

theorem Session.stepBatch_ok {s t : Session} {toks outs : List Token}
    (h : s.stepBatch N D maxBatch toks = .ok (outs, t)) :
    1 ≤ toks.length ∧ outs = (List.range toks.length).map (fun p => Pass.pick N D
      ((Pass.run N D toks.length s.nPast (embedAll N D toks) s.kv).1 p) (hint toks p)) ∧
      t = ⟨s.nPast + toks.length, (Pass.run N D toks.length s.nPast (embedAll N D toks) s.kv).2⟩ := by
  rw [Session.stepBatch] at h
  split_ifs at h with hbatch
  obtain ⟨rfl, rfl⟩ := Prod.mk.inj (Except.ok.inj h)
  exact ⟨by omega, rfl, rfl⟩

theorem Ledger.Agrees.step {g : Ledger} {s t : Session} {toks outs : List Token}
    (h : g.Agrees N D s) (hok : s.stepBatch N D maxBatch toks = .ok (outs, t)) :
    (g.call D (.step toks)).Agrees N D t := by
  obtain ⟨hm, -, rfl⟩ := Session.stepBatch_ok hok
  have hle := D.trueRows_le hm
  rw [Ledger.call]
  split_ifs with hclean hs
  · refine ⟨by simp [h.nPast], by simp; omega, ?_⟩
    have hrows := @Pass.run_rows N D g.held toks s.kv _ hle (hclean ▸ h.rows)
      (exactUpTo_trueRows _)
    rw [Decoder.trueRows, if_pos hs] at hrows
    rw [h.nPast]
    exact hrows
  · refine ⟨by simp [h.nPast], by simp, ?_⟩
    have hrows := @Pass.run_rows N D g.held toks s.kv _ hle (hclean ▸ h.rows)
      (exactUpTo_trueRows _)
    rw [Decoder.trueRows, if_neg hs] at hrows
    rw [h.nPast]
    exact hrows
  · have hlt := h.exact_le
    refine ⟨by simp [h.nPast], by simp; omega, ?_⟩
    intro l hl j hj
    have hj : j < g.exact := hj
    change (Pass.run N D toks.length s.nPast _ s.kv).2 l j = _
    rw [Pass.run_kv_old (by rw [h.nPast]; omega)]
    exact h.rows.append hlt toks l hl j hj

theorem Ledger.Agrees.rewind {g : Ledger} {s t : Session} {pos : ℤ} (h : g.Agrees N D s)
    (hok : s.rewindTo pos = .ok t) : (g.call D (.rewind pos)).Agrees N D t := by
  rw [Session.rewindTo] at hok
  split_ifs at hok with hpos
  have hnPast := h.nPast
  have hlt := h.exact_le
  obtain rfl := Except.ok.inj hok
  refine ⟨by simp [Ledger.call]; omega, by simp [Ledger.call]; omega, ?_⟩
  intro l hl j hj
  have hj : j < g.exact ∧ j < pos.toNat := by simpa [Ledger.call] using hj
  rw [show ({ s with nPast := pos.toNat } : Session).kv = s.kv from rfl, h.rows l hl j hj.1]
  apply trueRow_congr
  simp [Ledger.call, List.take_take]
  omega

theorem Ledger.Agrees.call {g : Ledger} {s t : Session} {c : Call} (h : g.Agrees N D s)
    (hok : s.call N D maxBatch c = .ok t) : (g.call D c).Agrees N D t := by
  cases c with
  | step toks =>
    rw [Session.call] at hok
    cases hstep : s.stepBatch N D maxBatch toks with
    | error e =>
      rw [hstep] at hok
      cases hok
    | ok r =>
      rw [hstep] at hok
      obtain rfl := Except.ok.inj hok
      exact h.step hstep
  | rewind pos => exact h.rewind hok
  | reset =>
    obtain rfl := Except.ok.inj hok
    exact ⟨rfl, le_rfl, fun l _ j hj => absurd hj (Nat.not_lt_zero j)⟩

/-- After any calls. -/
theorem Ledger.agrees_after {kv : KvCache} {cs : List Call} {s : Session}
    (hs : runCalls N D maxBatch kv cs = .ok s) : (Ledger.after D cs).Agrees N D s := by
  have hrun (cs : List Call) : ∀ (g : Ledger) (s0 : Session), g.Agrees N D s0 →
      cs.foldlM (Session.call N D maxBatch) s0 = .ok s →
      (cs.foldl (Ledger.call D) g).Agrees N D s := by
    induction cs with
    | nil =>
      intro g s0 hg hok
      obtain rfl := Except.ok.inj hok
      exact hg
    | cons c cs ih =>
      intro g s0 hg hok
      rw [List.foldlM_cons] at hok
      cases hc : s0.call N D maxBatch c with
      | error e =>
        rw [hc] at hok
        cases hok
      | ok s1 =>
        rw [hc] at hok
        exact ih _ s1 (hg.call hc) hok
  exact hrun cs ⟨[], 0⟩ ⟨0, kv⟩ ⟨rfl, le_rfl, fun l _ j hj => absurd hj (Nat.not_lt_zero j)⟩ hs

/-- The answers of a pass on a clean decoder: position 0, and the last one unless a truncation
spreads. -/
theorem Session.outs_true {cs : List Call} {kv : KvCache} {s t : Session} {toks outs : List Token}
    (hs : runCalls N D maxBatch kv cs = .ok s) (hclean : (Ledger.after D cs).Clean)
    (hok : s.stepBatch N D maxBatch toks = .ok (outs, t)) {p : ℕ} (hp : p < D.trueRows toks.length)
    (hku : Build.expertsAt D toks.length p = D.hp.nUsed) :
    outs[p]? = some (Pass.pick N D (Pass.rmsNorm N D (Pass.weight D .outputNorm)
      (truth N D D.hp.nLayer.toNat ((Ledger.after D cs).held ++ toks.take (p + 1)))
      D.hp.nEmbd.toNat) (hint toks p)) := by
  obtain ⟨hm, rfl, -⟩ := Session.stepBatch_ok hok
  have hle := D.trueRows_le hm
  have hagree := Ledger.agrees_after hs
  have hnorm := @Pass.run_norm N D (Ledger.after D cs).held toks s.kv _ hle
    (hclean ▸ hagree.rows) (exactUpTo_trueRows _) _ hp hku
  rw [List.getElem?_map, List.getElem?_range (by omega), hagree.nPast, Option.map_some, hnorm]

/-! ## The exact graph -/

theorem Ledger.clean_after {cs : List Call} (h : ∀ m, ¬ D.Spreads m) :
    (Ledger.after D cs).Clean := by
  have hrun (cs : List Call) : ∀ g : Ledger, g.Clean → (cs.foldl (Ledger.call D) g).Clean := by
    induction cs with
    | nil => exact fun g hg => hg
    | cons c cs ih =>
      intro g hg
      apply ih
      have hexact : g.exact = g.held.length := hg
      cases c with
      | step toks => simp [Ledger.call, h, Ledger.Clean, hexact]
      | rewind pos =>
        simp [Ledger.call, Ledger.Clean, hexact]
        omega
      | reset => rfl
  exact hrun cs ⟨[], 0⟩ rfl

theorem Decoder.not_spreads_exact (m : ℕ) : ¬ D.exact.Spreads m := fun h => h.1 rfl

theorem Build.expertsAt_exact (m p : ℕ) : expertsAt D.exact m p = D.hp.nUsed :=
  expertsAt_of fun h => h.1 rfl

/-- A batch that truncates nothing has the graph of the exact decoder. -/
theorem Build.wire_exact {m : ℕ}
    (h : ¬ (D.o.approxK ≠ 0 ∧ D.o.approxK < D.hp.nUsed ∧ 2 < m)) : wire D m = wire D.exact m := by
  have hp (p : ℕ) : expertsAt D m p = D.hp.nUsed := expertsAt_of h
  have hp' (p : ℕ) : expertsAt D.exact m p = D.hp.nUsed := expertsAt_exact m p
  have hmoe (l rowsz : UInt32) (i : FfnIn) (xo : Cols) :
      ffnMoe D l m rowsz i xo = ffnMoe D.exact l m rowsz i xo := by
    simp only [ffnMoe, addExperts, hp, hp']
    rfl
  have hffn (l rowsz : UInt32) (i : FfnIn) (xo : Cols) :
      ffn D l m rowsz i xo = ffn D.exact l m rowsz i xo := by
    simp only [ffn, hmoe]
    rfl
  have hlayer : layer D m = layer D.exact m := by
    funext rowsz r l
    simp only [layer, hffn]
    rfl
  simp only [wire, hlayer]
  rfl

/-- The switch is no part of the exact streams. -/
theorem truth_exact (l : ℕ) (ts : List Token) : truth N D.exact l ts = truth N D l ts := by
  induction l generalizing ts with
  | zero => rfl
  | succ l ih =>
    simp only [truth, ih]
    rfl

end

/-- **The answers of position 0 and of the last position are those of the exact graph** as long as
no truncation spreads: in every pass the one at position 0 when all held positions are exact, the
last one when the pass spreads no truncation either. -/
theorem outs_eq_exact (N : Numerics) (D : Decoder) {maxBatch maxBatch' : ℕ} {kv kv' : KvCache}
    {cs cs' : List Call} {s s' t t' : Session} {toks outs outs' : List Token}
    (hs : runCalls N D maxBatch kv cs = .ok s)
    (hs' : runCalls N D.exact maxBatch' kv' cs' = .ok s')
    (hheld : (Ledger.after D cs).held = (Ledger.after D.exact cs').held)
    (hok : s.stepBatch N D maxBatch toks = .ok (outs, t))
    (hok' : s'.stepBatch N D.exact maxBatch' toks = .ok (outs', t'))
    (hclean : (Ledger.after D cs).Clean) :
    outs[0]? = outs'[0]? ∧
      (¬ D.Spreads toks.length → outs[toks.length - 1]? = outs'[toks.length - 1]?) := by
  have hm := (Session.stepBatch_ok hok).1
  have hclean' : (Ledger.after D.exact cs').Clean := Ledger.clean_after Decoder.not_spreads_exact
  have hexact (p : ℕ) (hp : p < D.trueRows toks.length)
      (hku : Build.expertsAt D toks.length p = D.hp.nUsed) : outs[p]? = outs'[p]? := by
    have hp' : p < D.exact.trueRows toks.length := by
      rw [Decoder.trueRows, if_neg (Decoder.not_spreads_exact _)]
      exact lt_of_lt_of_le hp (D.trueRows_le hm)
    rw [Session.outs_true hs hclean hok hp hku,
      Session.outs_true hs' hclean' hok' hp' (Build.expertsAt_exact _ _), ← hheld, truth_exact]
    rfl
  constructor
  · apply hexact 0 _ Build.expertsAt_zero
    rw [Decoder.trueRows]
    split_ifs <;> omega
  · intro hspread
    apply hexact _ _ Build.expertsAt_last
    rw [Decoder.trueRows, if_neg hspread]
    omega

/-! ## A truncation that spreads -/

/-- Arithmetic of whole numbers in which norms and gates are one; a row that begins with the byte
255 has the constant product 200. -/
def countingFloats : FloatOps :=
  { (default : FloatOps) with
    lit := fun n _ => if n = 1 then 1 else 0
    add := fun a b => a + b
    mul := fun a b => if a = 1 then b else a
    div := fun _ _ => 1
    exp := fun _ => 1
    lt := fun a b => a < b
    dotRow := fun _ row x => if row.headD 0 = 255 then 200 else x.headD 0 }

/-- Every weight is one, but for the first row of the head. -/
def countingNumerics : Numerics where
  E := countingFloats
  file p := if p = ⟨1, 0⟩ then 255 else 1
  dequantChunk _ _ := []
  certArgmax _ _ := 0

/-- Two layers of two experts, of which intermediate positions run one; all widths are one. -/
def narrowDecoder : Decoder where
  hp :=
    { nEmbd := 1, nLayer := 2, nHead := 1, nVocab := 2, nDenseLead := 0, nFfDense := 1, nFfExp := 1
      nExpert := 2, nUsed := 2, kvLora := 1, dk := 1, dv := 1, dRope := 0, dNope := 1, rmsEps := 0
      expertScale := 1, expertNorm := 0, freqBase := 0, freqScale := 0, extFactor := 0
      attnFactor := 0, betaFast := 0, betaSlow := 0, nCtxOrig := 0, kqScale := 0 }
  o := { approxK := 1 }
  weights n :=
    let rows : UInt32 := match n with
      | .output | .blk _ .attnKvB | .blk _ .ffnGateInp => 2
      | _ => 1
    some ⟨if n = .output then ⟨1, 0⟩ else ⟨0, 0⟩, .F32, rows, 1, 4, 4, 1⟩
  kcache := ⟨2, 0⟩
  vcache := ⟨3, 0⟩
  pos := ⟨4, 0⟩

/-- The same with a dense first layer, so that only the last layer truncates. -/
def shallowDecoder : Decoder :=
  { narrowDecoder with hp := { narrowDecoder.hp with nDenseLead := 1 } }

theorem Session.ok_of_answers (x : Except Abort (List Token × Session)) (outs : List Token)
    (h : x.toOption.map Prod.fst = some outs) : ∃ t, x = .ok (outs, t) := by
  cases x with
  | error e => cases h
  | ok r =>
    obtain rfl := Option.some.inj h
    exact ⟨r.2, rfl⟩

/-- The truncation of the last layer does not show at the last position. -/
theorem outs_eq_exact_shallow : ∃ outs t outs' t',
    Session.stepBatch countingNumerics shallowDecoder 3 ⟨0, fun _ _ => default⟩ [0, 0, 0] =
      .ok (outs, t) ∧
    Session.stepBatch countingNumerics shallowDecoder.exact 3 ⟨0, fun _ _ => default⟩ [0, 0, 0] =
      .ok (outs', t') ∧
    outs[0]? = outs'[0]? ∧ outs[2]? = outs'[2]? := by
  obtain ⟨t, ht⟩ := Session.ok_of_answers (Session.stepBatch countingNumerics shallowDecoder 3
    ⟨0, fun _ _ => default⟩ [0, 0, 0]) [0, 0, 0] (by decide +kernel)
  obtain ⟨t', ht'⟩ := Session.ok_of_answers (Session.stepBatch countingNumerics shallowDecoder.exact 3
    ⟨0, fun _ _ => default⟩ [0, 0, 0]) [0, 0, 0] (by decide +kernel)
  have hrun (D : Decoder) : runCalls countingNumerics D 3 (fun _ _ => default) [] =
      .ok ⟨0, fun _ _ => default⟩ := rfl
  have h := outs_eq_exact countingNumerics shallowDecoder (hrun _) (hrun _) rfl ht ht' rfl
  exact ⟨_, _, _, _, ht, ht', h.1, h.2 (by decide)⟩

/-- With experts in the first layer too, the last answer of a batch of three is wrong. -/
theorem last_out_not_exact :
    2 ≤ narrowDecoder.hp.nLayer ∧ 0 < narrowDecoder.o.approxK ∧
    narrowDecoder.o.approxK < narrowDecoder.hp.nUsed ∧ ∃ outs t outs' t',
    Session.stepBatch countingNumerics narrowDecoder 3 ⟨0, fun _ _ => default⟩ [5, 6, 7] =
      .ok (outs, t) ∧
    Session.stepBatch countingNumerics narrowDecoder.exact 3 ⟨0, fun _ _ => default⟩ [5, 6, 7] =
      .ok (outs', t') ∧
    outs[2]? ≠ outs'[2]? := by
  obtain ⟨t, ht⟩ := Session.ok_of_answers (Session.stepBatch countingNumerics narrowDecoder 3
    ⟨0, fun _ _ => default⟩ [5, 6, 7]) [0, 0, 0] (by decide +kernel)
  obtain ⟨t', ht'⟩ := Session.ok_of_answers (Session.stepBatch countingNumerics narrowDecoder.exact 3
    ⟨0, fun _ _ => default⟩ [5, 6, 7]) [0, 0, 1] (by decide +kernel)
  exact ⟨by decide, by decide, by decide, _, _, _, _, ht, ht', by decide⟩

end FastLlm
