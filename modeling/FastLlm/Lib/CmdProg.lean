import Mathlib.Data.List.Basic

/-!
# Programs over a set of commands

A program issues commands and computes with their results; what a command does is
not part of it.  A specification gives every command a predicate transformer on
specification states, an implementation a function on machine states that may fail.
When the implementation refines the specification, command by command, every program
keeps what its weakest precondition promises.

## Main definitions

* `Meets` — a computation fails in an excused way or returns a good result.
* `CmdProg` — the program; a lawful monad.
* `wp` — the weakest precondition under a specification of the commands.
* `exec` — the run under an implementation of the commands.
* `Refines` — the implementation against the specification; `exec_of_wp`.
-/

/-! ## Computations that may fail -/

/-- `x` fails with an excused error, or returns a value in `Q`. -/
def Meets {ε α : Type} (excused : ε → Prop) (x : Except ε α) (Q : α → Prop) : Prop :=
  match x with
  | .error e => excused e
  | .ok a => Q a

namespace Meets
variable {ε α β : Type} {excused : ε → Prop}

@[simp] theorem error_iff {e : ε} {Q : α → Prop} :
    Meets excused (.error e) Q ↔ excused e := Iff.rfl

@[simp] theorem ok_iff {a : α} {Q : α → Prop} : Meets excused (.ok a) Q ↔ Q a := Iff.rfl

@[simp] theorem pure_iff {a : α} {Q : α → Prop} :
    Meets excused (pure a : Except ε α) Q ↔ Q a := Iff.rfl

theorem mono {x : Except ε α} {Q Q' : α → Prop} (h : Meets excused x Q)
    (hQ : ∀ a, Q a → Q' a) : Meets excused x Q' := by
  cases x with
  | error e => exact h
  | ok a => exact hQ a h

theorem bind {x : Except ε α} {f : α → Except ε β} {P : α → Prop} {Q : β → Prop}
    (hx : Meets excused x P) (hf : ∀ a, P a → Meets excused (f a) Q) :
    Meets excused (x >>= f) Q := by
  cases x with
  | error e => exact hx
  | ok a => exact hf a hx

/-- What the run returned meets the postcondition. -/
theorem of_ok {x : Except ε α} {Q : α → Prop} {a : α} (h : Meets excused x Q)
    (hx : x = .ok a) : Q a := by
  rw [hx] at h
  exact h

/-- What the run failed with is excused. -/
theorem of_error {x : Except ε α} {Q : α → Prop} {e : ε} (h : Meets excused x Q)
    (hx : x = .error e) : excused e := by
  rw [hx] at h
  exact h

/-- The two ways a computation may go. -/
theorem error_or_ok {x : Except ε α} {Q : α → Prop} (h : Meets excused x Q) :
    (∃ e, excused e ∧ x = .error e) ∨ ∃ a, x = .ok a ∧ Q a := by
  cases x with
  | error e => exact .inl ⟨e, h, rfl⟩
  | ok a => exact .inr ⟨a, rfl, h⟩

end Meets

/-! ## Programs -/

/-- A program that issues commands `c : C`, each answered by a value of `R c`. -/
inductive CmdProg (C : Type) (R : C → Type) (α : Type) where
  | pure (a : α)
  | step (c : C) (k : R c → CmdProg C R α)

namespace CmdProg
variable {C : Type} {R : C → Type} {α β : Type}

/-- Sequential composition. -/
def bind : CmdProg C R α → (α → CmdProg C R β) → CmdProg C R β
  | pure a, f => f a
  | step c k, f => step c fun r => bind (k r) f

instance : Monad (CmdProg C R) where
  pure := pure
  bind := bind

/-- Issue one command. -/
def issue (c : C) : CmdProg C R (R c) := step c pure

theorem bind_pure' (x : CmdProg C R α) : x.bind pure = x := by
  induction x with
  | pure a => rfl
  | step c k ih => exact congrArg (step c) (funext ih)

theorem bind_assoc' {γ : Type} (x : CmdProg C R α) (f : α → CmdProg C R β)
    (h : β → CmdProg C R γ) : (x.bind f).bind h = x.bind fun a => (f a).bind h := by
  induction x with
  | pure a => rfl
  | step c k ih => exact congrArg (step c) (funext ih)

instance : LawfulMonad (CmdProg C R) := LawfulMonad.mk' _
  (fun x => bind_pure' x)
  (fun _ _ => rfl)
  (fun x f h => bind_assoc' x f h)

/-! ## Weakest preconditions -/

section Spec
variable {S : Type} (spec : (c : C) → (R c → S → Prop) → S → Prop)

/-- The states from which every run within the specification ends in `Q`. -/
def wp : CmdProg C R α → (α → S → Prop) → S → Prop
  | pure a, Q => Q a
  | step c k, Q => spec c fun r => wp (k r) Q

@[simp] theorem wp_pure (a : α) (Q : α → S → Prop) (s : S) :
    wp spec (Pure.pure a : CmdProg C R α) Q s = Q a s := rfl

@[simp] theorem wp_issue (c : C) (Q : R c → S → Prop) (s : S) :
    wp spec (issue c) Q s = spec c Q s := rfl

@[simp] theorem wp_bind (x : CmdProg C R α) (f : α → CmdProg C R β) (Q : β → S → Prop) (s : S) :
    wp spec (x >>= f) Q s = wp spec x (fun a => wp spec (f a) Q) s := by
  have h : ∀ s, wp spec (x.bind f) Q s = wp spec x (fun a => wp spec (f a) Q) s := by
    induction x with
    | pure a => exact fun _ => rfl
    | step c k ih =>
      intro s
      exact congrFun (congrArg (spec c) (funext fun r => funext (ih r))) s
  exact h s

/-- A specification is monotone in the postcondition. -/
def SpecMono : Prop :=
  ∀ (c : C) (Q Q' : R c → S → Prop) (s : S), (∀ r s, Q r s → Q' r s) → spec c Q s → spec c Q' s

variable {spec}

theorem wp_mono (hm : SpecMono spec) {x : CmdProg C R α} {Q Q' : α → S → Prop} {s : S}
    (h : wp spec x Q s) (hQ : ∀ a s, Q a s → Q' a s) : wp spec x Q' s := by
  induction x generalizing s with
  | pure a => exact hQ a s h
  | step c k ih => exact hm c _ _ s (fun r s hr => ih r hr) h

/-- What holds of every run after what a command needs, and what every run leaves. -/
theorem wp_and {spec' : (c : C) → (R c → S → Prop) → S → Prop} (hm : SpecMono spec)
    (hand : ∀ (c : C) (Q Q' : R c → S → Prop) (s : S), spec c Q s → spec' c Q' s →
      spec c (fun r s => Q r s ∧ Q' r s) s)
    {x : CmdProg C R α} {Q Q' : α → S → Prop} {s : S} (h : wp spec x Q s) (h' : wp spec' x Q' s) :
    wp spec x (fun a s => Q a s ∧ Q' a s) s := by
  induction x generalizing s with
  | pure a => exact ⟨h, h'⟩
  | step c k ih => exact hm c _ _ s (fun r s hr => ih r hr.1 hr.2) (hand c _ _ s h h')

/-- A loop over a list whose rounds keep an invariant on the part done so far. -/
theorem wp_forM {ι : Type} (hm : SpecMono spec) {f : ι → CmdProg C R PUnit} {l : List ι}
    (Inv : List ι → S → Prop) {s : S} (h0 : Inv [] s)
    (hstep : ∀ (done : List ι) (i : ι) (rest : List ι) (s : S), l = done ++ i :: rest →
      Inv done s → wp spec (f i) (fun _ s => Inv (done ++ [i]) s) s) :
    wp spec (l.forM f) (fun _ s => Inv l s) s := by
  suffices H : ∀ (rest done : List ι) (s : S), l = done ++ rest → Inv done s →
      wp spec (rest.forM f) (fun _ s => Inv l s) s from H l [] s rfl h0
  intro rest
  induction rest with
  | nil =>
    intro done s hl hs
    rw [List.append_nil] at hl
    rw [hl]
    exact hs
  | cons i rest ih =>
    intro done s hl hs
    change wp spec (f i >>= fun _ => rest.forM f) _ s
    rw [wp_bind]
    apply wp_mono hm (hstep done i rest s hl hs)
    intro _ s1 h1
    exact ih (done ++ [i]) s1 (by rw [hl]; simp) h1

/-- `for (k = 0; k < n; ++k)` with the results of the rounds. -/
theorem wp_mapM_range (hm : SpecMono spec) {f : ℕ → CmdProg C R α} {n : ℕ}
    (Inv : ℕ → List α → S → Prop) {s : S} (h0 : Inv 0 [] s)
    (hstep : ∀ (k : ℕ) (as : List α) (s : S), k < n → Inv k as s →
      wp spec (f k) (fun a s => Inv (k + 1) (as ++ [a]) s) s) :
    wp spec ((List.range n).mapM f) (fun as s => Inv n as s) s := by
  induction n with
  | zero => exact h0
  | succ n ih =>
    rw [List.range_succ, List.mapM_append, wp_bind]
    apply wp_mono hm (ih fun k as s hk => hstep k as s (Nat.lt_succ_of_lt hk))
    intro as s1 h1
    rw [List.mapM_cons, wp_bind, wp_bind]
    apply wp_mono hm (hstep n as s1 (Nat.lt_succ_self n) h1)
    intro a s2 h2
    exact h2

/-- `for (k = 0; k < n; ++k)` with an accumulator. -/
theorem wp_foldlM_range (hm : SpecMono spec) {f : α → ℕ → CmdProg C R α} {n : ℕ}
    (Inv : ℕ → α → S → Prop) {a : α} {s : S} (h0 : Inv 0 a s)
    (hstep : ∀ (k : ℕ) (a : α) (s : S), k < n → Inv k a s →
      wp spec (f a k) (fun a s => Inv (k + 1) a s) s) :
    wp spec ((List.range n).foldlM f a) (fun a s => Inv n a s) s := by
  induction n with
  | zero => exact h0
  | succ n ih =>
    rw [List.range_succ, List.foldlM_append, wp_bind]
    apply wp_mono hm (ih fun k a s hk => hstep k a s (Nat.lt_succ_of_lt hk))
    intro a1 s1 h1
    rw [List.foldlM_cons, wp_bind]
    exact hstep n a1 s1 (Nat.lt_succ_self n) h1

end Spec

/-! ## Runs -/

section Exec
variable {ε T : Type} (run : (c : C) → T → Except ε (R c × T))

/-- Run the program on an implementation of its commands. -/
def exec : CmdProg C R α → T → Except ε (α × T)
  | pure a, t => .ok (a, t)
  | step c k, t => run c t >>= fun rt => exec (k rt.1) rt.2

@[simp] theorem exec_pure (a : α) (t : T) :
    exec run (Pure.pure a : CmdProg C R α) t = .ok (a, t) := rfl

theorem exec_bind (x : CmdProg C R α) (f : α → CmdProg C R β) (t : T) :
    exec run (x >>= f) t = exec run x t >>= fun at' => exec run (f at'.1) at'.2 := by
  have h : ∀ t, exec run (x.bind f) t = exec run x t >>= fun at' => exec run (f at'.1) at'.2 := by
    induction x with
    | pure a => exact fun _ => rfl
    | step c k ih =>
      intro t
      change (run c t >>= fun rt => exec run ((k rt.1).bind f) rt.2) = _
      simp only [ih, exec]
      cases run c t <;> rfl
  exact h t

variable {S : Type} (spec : (c : C) → (R c → S → Prop) → S → Prop)

/-- From related states, what the specification promises for a command the
implementation keeps, unless it fails in an excused way. -/
def Refines (excused : ε → Prop) (Rel : S → T → Prop) : Prop :=
  ∀ (c : C) (Q : R c → S → Prop) (s : S) (t : T), Rel s t → spec c Q s →
    Meets excused (run c t) fun rt => ∃ s', Rel s' rt.2 ∧ Q rt.1 s'

variable {run spec}

/-- A program keeps what its weakest precondition promises. -/
theorem exec_of_wp {excused : ε → Prop} {Rel : S → T → Prop}
    (hr : Refines run spec excused Rel) {x : CmdProg C R α} {Q : α → S → Prop} {s : S} {t : T}
    (hst : Rel s t) (hwp : wp spec x Q s) :
    Meets excused (exec run x t) fun at' => ∃ s', Rel s' at'.2 ∧ Q at'.1 s' := by
  induction x generalizing s t with
  | pure a => exact ⟨s, hst, hwp⟩
  | step c k ih =>
    apply (hr c _ s t hst hwp).bind
    intro rt ⟨s1, hrel, hwp1⟩
    exact ih rt.1 hrel hwp1

end Exec
end CmdProg
