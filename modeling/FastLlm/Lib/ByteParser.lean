import FastLlm.Lib.Bytes

/-!
# Byte parsers

A parser takes bytes from the front of its input or gives up with a message.  A
parser *reads* a syntax when it accepts an input exactly if the input starts with
the encoding of a valid value, which it then returns.  Reading composes, and a syntax
that some parser reads can be read in one way only.

## Main definitions

* `ByteParser`, `ByteParser.take`, `ByteParser.nat` — the parsers and the two basic ones.
* `ByteParser.rep`, `ByteParser.loop` — `n` values in a row, and a loop over them.
* `Reads N p V enc` — `p` reads the values of `V`, encoded by `enc`.
-/

namespace FastLlm

/-- Programs that take bytes from the front of the input and may give up. -/
abbrev ByteParser (α : Type) := StateT (List UInt8) (Except String) α

namespace ByteParser
variable {α β σ : Type}

def fail (msg : String) : ByteParser α := fun _ => .error msg

/-- The next `n` bytes. -/
def take (msg : String) (n : ℕ) : ByteParser (List UInt8) := fun bs =>
  if bs.length < n then .error msg else .ok (bs.take n, bs.drop n)

/-- The next `w` bytes as a little-endian number. -/
def nat (msg : String) (w : ℕ) : ByteParser ℕ := do
  let bs ← take msg w
  pure (leNat bs)

/-- `n` values in a row. -/
def rep : ℕ → ByteParser α → ByteParser (List α)
  | 0, _ => pure []
  | n + 1, p => do
      let x ← p
      let l ← rep n p
      pure (x :: l)

/-- A loop of `n` rounds that threads a state. -/
def loop : ℕ → (σ → ByteParser σ) → σ → ByteParser σ
  | 0, _, s => pure s
  | n + 1, body, s => do
      let s' ← body s
      loop n body s'

/-! ## Runs that succeed -/

theorem run_pure_ok {a b : α} {bs rest : List UInt8} :
    (pure a : ByteParser α).run bs = .ok (b, rest) ↔ b = a ∧ rest = bs := by
  change (Except.ok (a, bs) : Except String _) = .ok (b, rest) ↔ _
  rw [Except.ok.injEq, Prod.mk.injEq, eq_comm, eq_comm (a := bs)]

theorem run_bind_ok {p : ByteParser α} {f : α → ByteParser β} {b : β} {bs rest : List UInt8} :
    (p >>= f).run bs = .ok (b, rest) ↔
      ∃ a mid, p.run bs = .ok (a, mid) ∧ (f a).run mid = .ok (b, rest) := by
  change (p bs >>= fun r => f r.1 r.2) = .ok (b, rest) ↔ _
  cases h : p bs with
  | error e =>
    constructor
    · intro hc
      cases hc
    · rintro ⟨a, mid, ha, -⟩
      rw [show p.run bs = p bs from rfl, h] at ha
      cases ha
  | ok r =>
    obtain ⟨a, mid⟩ := r
    constructor
    · intro hc
      exact ⟨a, mid, h, hc⟩
    · rintro ⟨a', mid', ha, hf⟩
      rw [show p.run bs = p bs from rfl, h, Except.ok.injEq, Prod.mk.injEq] at ha
      obtain ⟨rfl, rfl⟩ := ha
      exact hf

theorem run_bind_error {p : ByteParser α} {f : α → ByteParser β} {bs : List UInt8} {msg : String}
    (hp : p.run bs = .error msg) : (p >>= f).run bs = .error msg := by
  rw [StateT.run_bind, hp]
  rfl

theorem run_bind_ok_error {p : ByteParser α} {f : α → ByteParser β} {a : α} {bs mid : List UInt8}
    {msg : String} (hp : p.run bs = .ok (a, mid)) (hf : (f a).run mid = .error msg) :
    (p >>= f).run bs = .error msg := by
  rw [StateT.run_bind, hp]
  exact hf

@[simp] theorem run_fail (msg : String) (bs : List UInt8) :
    (fail msg : ByteParser α).run bs = .error msg := rfl

theorem run_take_ok {msg : String} {n : ℕ} {b bs rest : List UInt8} :
    (take msg n).run bs = .ok (b, rest) ↔ b.length = n ∧ bs = b ++ rest := by
  change (if bs.length < n then _ else _) = _ ↔ _
  split
  · rename_i hlt
    constructor
    · intro hc
      cases hc
    · rintro ⟨hb, rfl⟩
      rw [List.length_append] at hlt
      omega
  · rename_i hle
    rw [Except.ok.injEq, Prod.mk.injEq]
    constructor
    · rintro ⟨rfl, rfl⟩
      exact ⟨by rw [List.length_take]; omega, (List.take_append_drop n bs).symm⟩
    · rintro ⟨rfl, rfl⟩
      exact ⟨List.take_left, List.drop_left⟩

theorem run_take_of_lt {msg : String} {n : ℕ} {bs : List UInt8} (h : bs.length < n) :
    (take msg n).run bs = .error msg := if_pos h

theorem run_take_of_le {msg : String} {n : ℕ} {bs : List UInt8} (h : n ≤ bs.length) :
    (take msg n).run bs = .ok (bs.take n, bs.drop n) := if_neg h.not_gt

/-! ## Loops -/

/-- A loop that reads a value and updates its state is the fold over the values read. -/
theorem loop_eq_rep (n : ℕ) (p : ByteParser α) (f : σ → α → σ) (s : σ) :
    loop n (fun s => do let x ← p; pure (f s x)) s =
      (do let l ← rep n p; pure (l.foldl f s)) := by
  induction n generalizing s with
  | zero => simp [loop, rep]
  | succ n ih => simp only [loop, rep, bind_assoc, pure_bind, List.foldl_cons, ih]

theorem loop_congr {n : ℕ} {body body' : σ → ByteParser σ} (h : ∀ s, body s = body' s) (s : σ) :
    loop n body s = loop n body' s := by
  rw [funext h]

end ByteParser

open ByteParser

/-! ## Reading a syntax -/

/-- On inputs of at most `N` bytes, `p` accepts exactly those that start with the encoding
of a valid value, and returns this value. -/
def Reads {α : Type} (N : ℕ) (p : ByteParser α) (V : α → Prop) (enc : α → List UInt8) : Prop :=
  ∀ bs, bs.length ≤ N → ∀ x rest, p.run bs = .ok (x, rest) ↔ V x ∧ bs = enc x ++ rest

section
variable {α β : Type} {N : ℕ} {p : ByteParser α} {V : α → Prop} {enc : α → List UInt8}

theorem Reads.mono (h : Reads N p V enc) {M : ℕ} (hM : M ≤ N) : Reads M p V enc :=
  fun bs hbs => h bs (hbs.trans hM)

/-- What has been encoded is read back, whatever follows. -/
theorem Reads.run_enc (h : Reads N p V enc) {x : α} (hx : V x) {rest : List UInt8}
    (hN : (enc x ++ rest).length ≤ N) : p.run (enc x ++ rest) = .ok (x, rest) :=
  (h _ hN _ _).mpr ⟨hx, rfl⟩

/-- A syntax is read in one way only. -/
theorem Reads.unique (h : Reads N p V enc) {x y : α} (hx : V x) (hy : V y) {r r' : List UInt8}
    (hN : (enc x ++ r).length ≤ N) (heq : enc x ++ r = enc y ++ r') : x = y ∧ r = r' := by
  have h1 := h.run_enc hx hN
  rw [heq, h.run_enc hy (heq ▸ hN), Except.ok.injEq, Prod.mk.injEq] at h1
  exact ⟨h1.1.symm, h1.2.symm⟩

theorem reads_take (N : ℕ) (msg : String) (n : ℕ) :
    Reads N (take msg n) (fun b => b.length = n) id :=
  fun _ _ _ _ => run_take_ok

theorem reads_nat (N : ℕ) (msg : String) (w : ℕ) :
    Reads N (nat msg w) (fun v => v < 256 ^ w) (leBytes w) := by
  intro bs _ v rest
  rw [nat, run_bind_ok]
  simp only [run_take_ok, run_pure_ok]
  constructor
  · rintro ⟨b, mid, ⟨hlen, rfl⟩, rfl, rfl⟩
    have hlt : leNat b < 256 ^ w := hlen ▸ leNat_lt b
    refine ⟨hlt, ?_⟩
    rw [leNat_inj (length_leBytes w _ |>.trans hlen.symm) (leNat_leBytes_of_lt hlt)]
  · rintro ⟨hv, rfl⟩
    exact ⟨leBytes w v, rest, ⟨length_leBytes w v, rfl⟩, (leNat_leBytes_of_lt hv).symm, rfl⟩

/-- One syntax after the other, the second parser chosen by the first value. -/
theorem Reads.bind (h : Reads N p V enc) {q : α → ByteParser β} {b : β} {bs rest : List UInt8}
    (hN : bs.length ≤ N) : (p >>= q).run bs = .ok (b, rest) ↔
      ∃ x mid, V x ∧ bs = enc x ++ mid ∧ mid.length ≤ N ∧ (q x).run mid = .ok (b, rest) := by
  rw [run_bind_ok]
  constructor
  · rintro ⟨x, mid, hx, hq⟩
    obtain ⟨hV, hbs⟩ := (h bs hN _ _).mp hx
    have hmid : mid.length ≤ N := by
      rw [hbs, List.length_append] at hN
      omega
    exact ⟨x, mid, hV, hbs, hmid, hq⟩
  · rintro ⟨x, mid, hV, hbs, -, hq⟩
    exact ⟨x, mid, (h bs hN _ _).mpr ⟨hV, hbs⟩, hq⟩

/-- A parser that rebuilds the value of another one. -/
theorem Reads.map {V' : β → Prop} {enc' : β → List UInt8} (h : Reads N p V enc) (f : α → β)
    (hV : ∀ b, V' b ↔ ∃ a, V a ∧ f a = b) (henc : ∀ a, V a → enc' (f a) = enc a) :
    Reads N (do let a ← p; pure (f a)) V' enc' := by
  intro bs hN b rest
  rw [h.bind hN]
  simp only [run_pure_ok]
  constructor
  · rintro ⟨a, mid, ha, rfl, -, rfl, rfl⟩
    exact ⟨(hV _).mpr ⟨a, ha, rfl⟩, by rw [henc a ha]⟩
  · rintro ⟨hb, rfl⟩
    obtain ⟨a, ha, rfl⟩ := (hV b).mp hb
    refine ⟨a, rest, ha, by rw [henc a ha], ?_, rfl, rfl⟩
    rw [List.length_append] at hN
    omega

theorem Reads.rep (h : Reads N p V enc) (n : ℕ) :
    Reads N (rep n p) (fun l => l.length = n ∧ ∀ x ∈ l, V x) (fun l => l.flatMap enc) := by
  induction n with
  | zero =>
    intro bs _ l rest
    rw [ByteParser.rep, run_pure_ok]
    constructor
    · rintro ⟨rfl, rfl⟩
      exact ⟨⟨rfl, by simp⟩, rfl⟩
    · rintro ⟨⟨hlen, -⟩, rfl⟩
      obtain rfl := List.eq_nil_of_length_eq_zero hlen
      exact ⟨rfl, rfl⟩
  | succ n ih =>
    intro bs hN l rest
    rw [ByteParser.rep, h.bind hN]
    constructor
    · rintro ⟨x, mid, hx, rfl, hmid, hq⟩
      rw [ih.bind hmid] at hq
      obtain ⟨l', mid', ⟨hlen, hl⟩, rfl, -, hp⟩ := hq
      obtain ⟨rfl, rfl⟩ := run_pure_ok.mp hp
      refine ⟨⟨by rw [List.length_cons, hlen], ?_⟩, by simp⟩
      exact List.forall_mem_cons.mpr ⟨hx, hl⟩
    · rintro ⟨⟨hlen, hl⟩, rfl⟩
      cases l with
      | nil => cases hlen
      | cons x l =>
        obtain ⟨hx, hl⟩ := List.forall_mem_cons.mp hl
        simp only [List.flatMap_cons, List.append_assoc] at hN
        have hmid : (l.flatMap enc ++ rest).length ≤ N := by
          rw [List.length_append] at hN
          omega
        refine ⟨x, l.flatMap enc ++ rest, hx, by simp, hmid, ?_⟩
        rw [ih.bind hmid]
        refine ⟨l, rest, ⟨Nat.succ.inj hlen, hl⟩, rfl, ?_, run_pure_ok.mpr ⟨rfl, rfl⟩⟩
        rw [List.length_append] at hmid
        omega

end

end FastLlm
