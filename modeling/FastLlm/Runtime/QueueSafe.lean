import FastLlm.Runtime.QueueInv

/-!
# The ready queue delivers each value once

Every atomic access of every operation keeps the invariant of the queue, given that the capacity
is not one and the uses of cursors are prompt.  What a caller of the queue relies on,
`Delivers`, follows.  A queue of capacity one is different: its only cell's `seq` says the same
of a position that is ready and of one a lap later that is free, and a second `push` overwrites
the value of the first.

## Main definitions

* `Delivers` — the queue's contract, at one state.
* `queue_delivers_iff` — the states of all prompt runs meet it exactly if the capacity is not
  one.
-/

namespace FastLlm.ReadyQueue

variable {ι : Type} {cap : ℕ}

theorem wrap_add (j k : ℕ) : wrap j + wrap k = wrap (j + k) := (UInt32.ofNat_add j k).symm

/-- The thread has no position to publish or to deliver. -/
def Pc.quiet (p : Pc) : Prop := p.taking = 0 ∧ p.pushing = false

namespace State

variable [DecidableEq ι] (s : State ι) (t u : ι) (p : Pc)

@[simp] theorem goto_pc_self : (s.goto t p).pc t = p := Function.update_self ..

theorem goto_pc_ne (h : u ≠ t) : (s.goto t p).pc u = s.pc u := Function.update_of_ne h ..

@[simp] theorem readCursor_since : (s.readCursor t p).since t = 0 := Function.update_self ..

@[simp] theorem ret_since_self : (s.ret t).since t = s.since t := if_pos rfl

theorem ret_since_ne (h : u ≠ t) : (s.ret t).since u = s.since u + 1 := if_neg h

@[simp] theorem advanceHead_base (v pos : UInt32) :
    (s.advanceHead t v pos).base t = s.ring.enq.length := Function.update_self ..

@[simp] theorem advanceTail_base (pos : UInt32) (m : ℕ) :
    (s.advanceTail t pos m).base t = s.ring.deq.length := Function.update_self ..

end State

section quiet

variable {s s' : State ι} {t : ι}

/-- A quiet thread has delivered whatever it claimed. -/
theorem Local.delivered_of_quiet (h : Local cap s t) (hq : (s.pc t).quiet) {k : ℕ}
    (hk : s.ring.deq[k]? = some t) : k ∈ s.delivered := by
  rcases h.claims k hk with hdone | htakes
  · exact hdone
  · obtain ⟨hle, hlt⟩ := htakes
    have hzero := hq.1
    omega

/-- A quiet thread has published whatever it enqueued. -/
theorem Local.not_inPush_of_quiet (h : Local cap s t) (hq : (s.pc t).quiet) {k : ℕ} {v : UInt32}
    (hk : s.ring.enq[k]? = some (t, v)) : ¬ (s.ring.phase k).inPush := by
  intro hin
  have hpush := (h.pushes k v hk hin).1
  rw [hq.2] at hpush
  cases hpush

/-- A step that only looks at the queue. -/
theorem Inv.look (h : Inv cap s) (hq : s'.q = s.q) (hring : s'.ring = s.ring)
    (hpopped : s'.popped = s.popped) (hbase : s'.base = s.base)
    (hpc : ∀ u, u ≠ t → s'.pc u = s.pc u) (hsince : ∀ u, u ≠ t → s.since u ≤ s'.since u)
    (hold : (s.pc t).quiet)
    (hat : AtPc cap s.ring s.delivered t (s.base t) (s'.since t) (s'.pc t)) : Inv cap s' := by
  have hdone : s'.delivered = s.delivered := by rw [State.delivered, hpopped]; rfl
  have hlocal := h.threads t
  refine h.of_frame (t := t) ?_ ?_ ?_ ?_
  · exact {
      move := by rw [hring]; exact .stay _
      pc := hpc
      base := fun u _ => by rw [hbase]
      since := fun u hu => by rw [hring]; exact Nat.add_le_add_left (hsince u hu) _
      keeps := fun k hk => hdone ▸ hk
      adds := fun k hk => Or.inl (hdone ▸ hk) }
  · rw [hq, hring]
    exact h.mirrors
  · rw [hring, hpopped]
    exact h.delivered
  · constructor
    · rw [hring, hdone, hbase]
      exact hat
    · intro k v hk hin
      rw [hring] at hk hin
      exact absurd hin (hlocal.not_inPush_of_quiet hold hk)
    · intro k hk
      rw [hring] at hk
      rw [hdone]
      exact Or.inl (hlocal.delivered_of_quiet hold hk)

variable [DecidableEq ι]

theorem Inv.goto (h : Inv cap s) {p : Pc} (hold : (s.pc t).quiet)
    (hat : AtPc cap s.ring s.delivered t (s.base t) (s.since t) p) : Inv cap (s.goto t p) := by
  refine h.look (t := t) rfl rfl rfl rfl (fun u hu => s.goto_pc_ne t u p hu)
    (fun u _ => le_rfl) hold ?_
  rw [State.goto_pc_self]
  exact hat

theorem Inv.readCursor (h : Inv cap s) {p : Pc} (hold : (s.pc t).quiet)
    (hat : AtPc cap s.ring s.delivered t (s.base t) 0 p) : Inv cap (s.readCursor t p) := by
  refine h.look (t := t) rfl rfl rfl rfl (fun u hu => s.goto_pc_ne t u p hu) ?_ hold ?_
  · intro u hu
    exact (Function.update_of_ne hu 0 s.since).ge
  · rw [State.readCursor_since]
    show AtPc cap s.ring s.delivered t (s.base t) 0 ((s.goto t p).pc t)
    rw [State.goto_pc_self]
    exact hat

theorem Inv.ret (h : Inv cap s) (hold : (s.pc t).quiet) : Inv cap (s.ret t) := by
  have hidle : (s.ret t).pc t = .idle := s.goto_pc_self t .idle
  refine h.look (t := t) rfl rfl rfl rfl (fun u hu => s.goto_pc_ne t u .idle hu) ?_ hold ?_
  · intro u hu
    rw [State.ret_since_ne s t u hu]
    omega
  · rw [hidle]
    trivial

end quiet

/-! ## The cursors -/

section cursors

variable {s : State ι} {t : ι}

theorem Inv.copyOfHead (h : Inv cap s) :
    CopyOfHead s.ring 0 s.q.head s.ring.enq.length where
  pos_eq := h.mirrors.head
  le := le_rfl
  recent := s.ring.published_le

theorem Inv.copyOfTail (h : Inv cap s) :
    CopyOfTail cap s.ring 0 s.q.tail s.ring.deq.length where
  pos_eq := h.mirrors.tail
  le := le_rfl
  recent := by
    have hpub := s.ring.published_le
    have hroom := h.ok.enq_le
    omega

/-- A prompt compare-and-swap of `head` succeeds only on an up-to-date copy. -/
theorem Inv.head_eq (h : Inv cap s) {pos : UInt32} {p : ℕ}
    (hp : CopyOfHead s.ring (s.since t) pos p) (hprompt : s.since t < 2 ^ 31 - cap)
    (heq : s.q.head = pos) : s.ring.enq.length = p := by
  have hpub := h.ok.length_le_published
  have hrecent := hp.recent
  rw [h.mirrors.head, hp.pos_eq] at heq
  exact (wrap_inj_of_lt hp.le (by omega) heq.symm).symm

/-- A prompt compare-and-swap of `tail` succeeds only on an up-to-date copy. -/
theorem Inv.tail_eq (hcap : Capacity cap) (h : Inv cap s) {pos : UInt32} {p : ℕ}
    (hp : CopyOfTail cap s.ring (s.since t) pos p) (hprompt : s.since t < 2 ^ 31 - cap)
    (heq : s.q.tail = pos) : s.ring.deq.length = p := by
  have hpub := h.ok.length_le_published
  have hle := h.ok.deq_le_enq
  have hlarge := hcap.le
  have hrecent := hp.recent
  rw [h.mirrors.tail, hp.pos_eq] at heq
  exact (wrap_inj_of_lt hp.le (by omega) heq.symm).symm

/-- The next of a run of ready cells is ready too. -/
theorem Inv.allReady_succ (hcap : Capacity cap) (h : Inv cap s) {p m : ℕ}
    (hready : s.ring.deq.length = p → s.ring.AllReady p m)
    (hseq : s.q.seqAt (wrap (p + m)) = wrap (p + m + 1)) :
    s.ring.deq.length = p → s.ring.AllReady p (m + 1) := by
  intro hp
  have hall := hready hp
  have hle := h.ok.deq_le_enq
  have hlt : p + m ≤ s.ring.enq.length := by
    cases m with
    | zero => omega
    | succ n =>
      have hlast := hall n (by omega)
      have := h.ok.lt_enq (k := p + n) (by rw [hlast]; decide)
      omega
  intro i hi
  rcases Nat.lt_succ_iff_lt_or_eq.1 hi with hlt' | rfl
  · exact hall i hlt'
  · exact h.mirrors.ready_of_seq hcap h.ok (by omega) hlt hseq

end cursors

/-! ## Pushing -/

section push

variable [DecidableEq ι] {s : State ι} {t : ι} {v pos : UInt32}

theorem Inv.advanceHead (h : Inv cap s) (hpc : s.pc t = .pushCas v pos)
    (hpos : pos = wrap s.ring.enq.length) (hvac : s.ring.Vacant cap s.ring.enq.length) :
    Inv cap ((s.advanceHead t v pos).goto t (.pushVal v pos)) := by
  have hquiet : (s.pc t).quiet := by rw [hpc]; exact ⟨rfl, rfl⟩
  refine h.of_frame (t := t) ?_ ?_ (h.delivered.of_move h.ok (.reserve v hvac)) ?_
  · exact {
      move := .reserve v hvac
      pc := fun u hu => State.goto_pc_ne _ t u _ hu
      base := fun u hu => Function.update_of_ne hu _ _
      since := fun u _ => (congrArg (· + s.since u) (s.ring.published_reserve t v)).le
      keeps := fun k hk => hk
      adds := fun k hk => Or.inl hk }
  · have hmirrors := h.mirrors.reserve h.ok t v hvac
    rw [← wrap_add_one, ← hpos] at hmirrors
    exact hmirrors
  · have hbase : ((s.advanceHead t v pos).goto t (.pushVal v pos)).base t = s.ring.enq.length :=
      State.advanceHead_base s t v pos
    constructor
    · rw [State.goto_pc_self, hbase]
      refine ⟨hpos, ?_, ?_⟩
      · exact List.getElem?_concat_length
      · exact (s.ring.reserve_phase t v _).trans (if_pos rfl)
    · intro k w hk hin
      rw [State.goto_pc_self, hbase]
      refine ⟨rfl, ?_⟩
      by_contra hne
      change (s.ring.enq ++ [(t, v)])[k]? = some (t, w) at hk
      have hlt := (List.getElem?_eq_some_iff.1 hk).1
      rw [List.length_append, List.length_singleton] at hlt
      rw [List.getElem?_append_left (by omega)] at hk
      change ((s.ring.reserve t v).phase k).inPush at hin
      rw [Ring.reserve_phase, if_neg (Ne.symm hne)] at hin
      exact (h.threads t).not_inPush_of_quiet hquiet hk hin
    · intro k hk
      exact Or.inl ((h.threads t).delivered_of_quiet hquiet hk)

theorem Inv.pushVal (hcap : Capacity cap) (h : Inv cap s) (hpc : s.pc t = .pushVal v pos) :
    Inv cap (({ s with q := s.q.storeVal pos v }.note (s.base t) .stored).goto t
      (.pushDone pos)) := by
  have hlocal := h.threads t
  have hat := hlocal.at_pc
  rw [hpc] at hat
  obtain ⟨hpos, he, hph⟩ := hat
  have hmove : s.ring.Move cap t (s.ring.mark (s.base t) .stored) := .store he hph
  refine h.of_frame (t := t) ?_ ?_ (h.delivered.of_move h.ok hmove) ?_
  · have hpub : (s.ring.mark (s.base t) .stored).published = s.ring.published :=
      Ring.published_mark_of_inPush (by rw [hph]; rfl)
    exact {
      move := hmove
      pc := fun u hu => State.goto_pc_ne _ t u _ hu
      base := fun u _ => rfl
      since := fun u _ => (congrArg (· + s.since u) hpub).le
      keeps := fun k hk => hk
      adds := fun k hk => Or.inl hk }
  · have hmirrors := h.mirrors.storeVal hcap h.ok he hph
    rw [← hpos] at hmirrors
    exact hmirrors
  · constructor
    · rw [State.goto_pc_self]
      refine ⟨hpos, ⟨v, he⟩, ?_⟩
      exact (s.ring.mark_phase _ _ _).trans (if_pos rfl)
    · intro k w hk hin
      rw [State.goto_pc_self]
      refine ⟨rfl, ?_⟩
      show s.base t = k
      by_contra hne
      change ((s.ring.mark (s.base t) .stored).phase k).inPush at hin
      rw [Ring.mark_phase, if_neg (Ne.symm hne)] at hin
      exact hne (hlocal.pushes k w hk hin).2
    · intro k hk
      rcases hlocal.claims k hk with hdone | ⟨hle, hlt⟩
      · exact Or.inl hdone
      · rw [hpc] at hlt
        exact absurd hlt (by simp only [Pc.taking]; omega)

theorem Inv.pushDone (hcap : Capacity cap) (h : Inv cap s) (hpc : s.pc t = .pushDone pos) :
    Inv cap (({ s with q := s.q.storeSeq pos (pos + 1) }.note (s.base t) .ready).ret t) := by
  have hlocal := h.threads t
  have hat := hlocal.at_pc
  rw [hpc] at hat
  obtain ⟨hpos, ⟨v, he⟩, hph⟩ := hat
  have hmove : s.ring.Move cap t (s.ring.mark (s.base t) .ready) := .publish he hph
  refine h.of_frame (t := t) ?_ ?_ (h.delivered.of_move h.ok hmove) ?_
  · exact {
      move := hmove
      pc := fun u hu => State.goto_pc_ne _ t u _ hu
      base := fun u _ => rfl
      since := fun u hu => by
        have hpub := s.ring.published_publish_le (s.base t) .ready
        rw [State.ret_since_ne _ t u hu]
        show (s.ring.mark (s.base t) .ready).published + s.since u ≤ _ + (s.since u + 1)
        omega
      keeps := fun k hk => hk
      adds := fun k hk => Or.inl hk }
  · have hmirrors := h.mirrors.storeSeq hcap h.ok (k := s.base t) (p := .ready) (by simp [hph])
      (by simp [hph]) (by rw [hph]; exact fun _ => rfl)
    show Mirrors cap (s.q.storeSeq pos (pos + 1)) (s.ring.mark (s.base t) .ready)
    rw [hpos, wrap_add_one]
    exact hmirrors
  · have hidle : (({ s with q := s.q.storeSeq pos (pos + 1) }.note (s.base t) .ready).ret t).pc t =
        .idle := State.goto_pc_self _ t .idle
    constructor
    · rw [hidle]
      trivial
    · intro k w hk hin
      exfalso
      change ((s.ring.mark (s.base t) .ready).phase k).inPush at hin
      rw [Ring.mark_phase] at hin
      split at hin
      · cases hin
      · next hne => exact hne (hlocal.pushes k w hk hin).2.symm
    · intro k hk
      rcases hlocal.claims k hk with hdone | ⟨hle, hlt⟩
      · exact Or.inl hdone
      · rw [hpc] at hlt
        exact absurd hlt (by simp only [Pc.taking]; omega)

end push

/-! ## Popping -/

section pop

theorem Taking.congr {r : Ring ι UInt32} {done : List ℕ} {t : ι} {base m : ℕ} {pos : UInt32}
    {out : List UInt32} {ph ph' : ℕ → Phase} (h : Taking r done t base pos m out ph)
    (hph : ∀ j < m, ph j = ph' j) : Taking r done t base pos m out ph' :=
  { h with phase := fun j hj => (h.phase j hj).trans (hph j hj) }

/-- One of the claimed positions moves on. -/
theorem Taking.mark {r : Ring ι UInt32} {done : List ℕ} {t : ι} {base m i : ℕ} {pos : UInt32}
    {out : List UInt32} {ph ph' : ℕ → Phase} {p : Phase} (h : Taking r done t base pos m out ph)
    (hph : ∀ j < m, ph' j = if j = i then p else ph j) :
    Taking (r.mark (base + i) p) done t base pos m out ph' where
  pos_eq := h.pos_eq
  mine := h.mine
  phase j hj := by
    rw [Ring.mark_phase, hph j hj]
    by_cases hji : j = i
    · rw [if_pos (by rw [hji]), if_pos hji]
    · rw [if_neg (by omega), if_neg hji]
      exact h.phase j hj
  kept := h.kept
  vals := h.vals

/-- One more value is read. -/
theorem Taking.read {r : Ring ι UInt32} {done : List ℕ} {t : ι} {base m : ℕ} {pos v : UInt32}
    {out : List UInt32} {ph : ℕ → Phase} (h : Taking r done t base pos m out ph) {u : ι}
    (hv : r.enq[base + out.length]? = some (u, v)) :
    Taking r done t base pos m (out ++ [v]) ph :=
  { h with
    vals := fun j w hj => by
      rw [List.getElem?_append] at hj
      split at hj
      · exact h.vals j w hj
      · next hge =>
        have hlt := (List.getElem?_eq_some_iff.1 hj).1
        rw [List.length_singleton] at hlt
        have hjlen : j = out.length := by omega
        subst hjlen
        rw [Nat.sub_self] at hj
        obtain rfl := Option.some.inj hj
        exact ⟨u, hv⟩ }

variable [DecidableEq ι] {s : State ι} {t : ι} {pos : UInt32}

theorem Inv.advanceTail (h : Inv cap s) {light : Bool} {m : ℕ} (hquiet : (s.pc t).quiet)
    (hm : 0 < m) (hpos : pos = wrap s.ring.deq.length)
    (hready : s.ring.AllReady s.ring.deq.length m) :
    Inv cap ((s.advanceTail t pos m).goto t (.readVal light pos m 0 [])) := by
  have hlocal := h.threads t
  refine h.of_frame (t := t) ?_ ?_ (h.delivered.of_move h.ok (.claim hready)) ?_
  · exact {
      move := .claim hready
      pc := fun u hu => State.goto_pc_ne _ t u _ hu
      base := fun u hu => Function.update_of_ne hu _ _
      since := fun u _ => (congrArg (· + s.since u) (Ring.published_claim hready)).le
      keeps := fun k hk => hk
      adds := fun k hk => Or.inl hk }
  · have hmirrors := h.mirrors.claim t hready
    show Mirrors cap { s.q with tail := pos + UInt32.ofNat m } (s.ring.claim t m)
    rw [hpos, wrap_add_ofNat]
    exact hmirrors
  · have hbase : ((s.advanceTail t pos m).goto t (.readVal light pos m 0 [])).base t =
        s.ring.deq.length := State.advanceTail_base s t pos m
    constructor
    · rw [State.goto_pc_self, hbase]
      refine ⟨hm, rfl, ?_⟩
      constructor
      · exact hpos
      · intro j hj
        show (s.ring.deq ++ List.replicate m t)[s.ring.deq.length + j]? = some t
        rw [List.getElem?_append_right (by omega), Nat.add_sub_cancel_left,
          List.getElem?_replicate, if_pos hj]
      · intro j hj
        exact (s.ring.claim_phase t m _).trans (if_pos (by omega))
      · intro j hj hdone
        have hfree := h.delivered.free _ hdone
        have hlt := (h.ok.passed_iff _).1 (by rw [hfree]; rfl)
        omega
      · intro j v hj
        cases hj
    · intro k v hk hin
      exfalso
      change ((s.ring.claim t m).phase k).inPush at hin
      rw [Ring.claim_phase] at hin
      split at hin
      · cases hin
      · exact hlocal.not_inPush_of_quiet hquiet hk hin
    · intro k hk
      change (s.ring.deq ++ List.replicate m t)[k]? = some t at hk
      have hlt := (List.getElem?_eq_some_iff.1 hk).1
      rw [List.length_append, List.length_replicate] at hlt
      rcases Nat.lt_or_ge k s.ring.deq.length with hold | hnew
      · rw [List.getElem?_append_left hold] at hk
        exact Or.inl (hlocal.delivered_of_quiet hquiet hk)
      · right
        rw [State.Takes, State.goto_pc_self, hbase]
        exact ⟨hnew, hlt⟩

/-- A step of a consumer with the position it is at: the thread reads the value or stores the
`seq`, and stays in the operation. -/
theorem Inv.inTake (h : Inv cap s) {k : ℕ} {p : Phase} {q : Queue} {pc : Pc}
    (hmove : s.ring.Move cap t (s.ring.mark k p)) (hp : p.inPush = false)
    (hin : (s.ring.phase k).inPush = false) (hmirrors : Mirrors cap q (s.ring.mark k p))
    (hquiet : (s.pc t).pushing = false) (htaking : pc.taking = (s.pc t).taking)
    (hat : AtPc cap (s.ring.mark k p) s.delivered t (s.base t) (s.since t) pc) :
    Inv cap (({ s with q := q }.note k p).goto t pc) := by
  have hlocal := h.threads t
  refine h.of_frame (t := t) ?_ hmirrors (h.delivered.of_move h.ok hmove) ?_
  · have hpub : (s.ring.mark k p).published = s.ring.published :=
      Ring.published_mark_of_inPush (hp.trans hin.symm)
    exact {
      move := hmove
      pc := fun u hu => State.goto_pc_ne _ t u _ hu
      base := fun u _ => rfl
      since := fun u _ => (congrArg (· + s.since u) hpub).le
      keeps := fun k hk => hk
      adds := fun k hk => Or.inl hk }
  · constructor
    · rw [State.goto_pc_self]
      exact hat
    · intro j v hj hpush
      exfalso
      change ((s.ring.mark k p).phase j).inPush at hpush
      rw [Ring.mark_phase] at hpush
      split at hpush
      · rw [hp] at hpush
        cases hpush
      · have hpushing := (hlocal.pushes j v hj hpush).1
        rw [hquiet] at hpushing
        cases hpushing
    · intro j hj
      rcases hlocal.claims j hj with hdone | htakes
      · exact Or.inl hdone
      · right
        rw [State.Takes, State.goto_pc_self, htaking]
        exact htakes

theorem Inv.readVal (hcap : Capacity cap) (h : Inv cap s) {light : Bool} {m i : ℕ}
    {out : List UInt32} (hpc : s.pc t = .readVal light pos m i out) : Inv cap (s.advance t) := by
  have hat := (h.threads t).at_pc
  rw [hpc] at hat
  obtain ⟨hi, hlen, htake⟩ := hat
  have hmine := htake.mine i hi
  have hph : s.ring.phase (s.base t + i) = .claimed := by
    rw [htake.phase i hi, readPhase, if_neg (lt_irrefl i)]
  have hlt := h.ok.lt_enq (k := s.base t + i) (by simp [hph])
  -- the cell still holds what was pushed at this position
  obtain ⟨⟨u, v⟩, hv⟩ : ∃ x, s.ring.enq[s.base t + i]? = some x :=
    ⟨_, List.getElem?_eq_getElem hlt⟩
  have hval : s.q.valAt (pos + UInt32.ofNat i) = v := by
    rw [htake.pos_eq, wrap_add_ofNat, Queue.valAt, h.mirrors.cell hcap]
    exact h.mirrors.val _ u v hv (by rw [hph]; rfl)
  have hread := htake.read (u := u) (v := v) (by rw [hlen]; exact hv)
  have hlen' : (out ++ [v]).length = i + 1 := by rw [List.length_append, hlen]; rfl
  rw [State.advance, hpc]
  simp only [hval]
  refine h.inTake (q := s.q) (.take hmine hph) rfl (by rw [hph]; rfl) (h.mirrors.take hph)
    (by rw [hpc]; rfl) ?_ ?_
  · rw [hpc]
    split_ifs <;> rfl
  · split_ifs with hlight hlast
    · refine ⟨hlast, hlen', hread.mark fun j hj => ?_⟩
      simp only [readPhase, hlight, if_true]
      split_ifs <;> first | rfl | omega
    · refine ⟨by omega, by rw [if_pos hlight]; omega, hread.mark fun j hj => ?_⟩
      simp only [readPhase, recyclePhase, hlight, Bool.true_or, if_true]
      split_ifs <;> first | rfl | omega
    · refine ⟨hi, by rw [if_neg hlight]; exact hlen', hread.mark fun j hj => ?_⟩
      obtain rfl : light = false := Bool.eq_false_iff.2 hlight
      simp only [readPhase, recyclePhase, Bool.false_or, decide_eq_true_eq, Bool.false_eq_true,
        if_false]
      split_ifs <;> first | rfl | omega

/-- The last of the claimed cells is recycled and the operation returns. -/
theorem Inv.deliver (h : Inv cap s) {k m : ℕ} {q : Queue} {out : List UInt32}
    (hmove : s.ring.Move cap t (s.ring.mark k .free)) (hin : (s.ring.phase k).inPush = false)
    (hmirrors : Mirrors cap q (s.ring.mark k .free)) (hquiet : (s.pc t).pushing = false)
    (htaking : (s.pc t).taking = m) (hlen : out.length = m)
    (htake : Taking (s.ring.mark k .free) s.delivered t (s.base t) pos m out fun _ => .free) :
    Inv cap (({ s with q := q }.note k .free).deliver t out) := by
  have hlocal := h.threads t
  set s' := ({ s with q := q }.note k .free).deliver t out with hs'
  have hdone : s'.delivered = s.delivered ++ List.range' (s.base t) m := by
    show (s.popped ++ [Delivery.mk t (s.base t) out]).flatMap Delivery.positions = _
    rw [List.flatMap_append, List.flatMap_singleton, Delivery.positions, hlen]
    rfl
  have hold := h.delivered.of_move h.ok hmove
  have hidle : s'.pc t = .idle := State.goto_pc_self _ t .idle
  have hrange : ∀ j ∈ List.range' (s.base t) m, ∃ i < m, j = s.base t + i := by
    intro j hj
    rw [List.mem_range'_1] at hj
    exact ⟨j - s.base t, by omega, by omega⟩
  refine h.of_frame (t := t) ?_ hmirrors ?_ ?_
  · have hpub : (s.ring.mark k .free).published = s.ring.published :=
      Ring.published_mark_of_inPush (by rw [hin]; rfl)
    exact {
      move := hmove
      pc := fun u hu => State.goto_pc_ne _ t u _ hu
      base := fun u _ => rfl
      since := fun u hu => by
        have hsince : s'.since u = s.since u + 1 := State.ret_since_ne _ t u hu
        rw [hsince]
        show (s.ring.mark k .free).published + s.since u ≤ _
        omega
      keeps := fun j hj => by
        rw [hdone]
        exact List.mem_append_left _ hj
      adds := fun j hj => by
        rw [hdone, List.mem_append] at hj
        rcases hj with hj | hj
        · exact Or.inl hj
        · obtain ⟨i, hi, rfl⟩ := hrange j hj
          exact Or.inr (htake.mine i hi) }
  · constructor
    · intro j hj
      change j ∈ s'.delivered at hj
      rw [hdone, List.mem_append] at hj
      rcases hj with hj | hj
      · exact hold.free j hj
      · obtain ⟨i, hi, rfl⟩ := hrange j hj
        exact htake.phase i hi
    · show s'.delivered.Nodup
      rw [hdone]
      refine hold.nodup.append List.nodup_range' ?_
      intro j hj hj'
      obtain ⟨i, hi, rfl⟩ := hrange j hj'
      exact htake.kept i hi hj
    · intro d hd i v hv
      change d ∈ s.popped ++ [Delivery.mk t (s.base t) out] at hd
      rw [List.mem_append, List.mem_singleton] at hd
      rcases hd with hd | rfl
      · exact hold.right d hd i v hv
      · have hi := (List.getElem?_eq_some_iff.1 hv).1
        exact ⟨htake.mine i (hlen ▸ hi), htake.vals i v hv⟩
  · constructor
    · rw [hidle]
      trivial
    · intro j v hj hpush
      exfalso
      change ((s.ring.mark k .free).phase j).inPush at hpush
      rw [Ring.mark_phase] at hpush
      split at hpush
      · cases hpush
      · have hpushing := (hlocal.pushes j v hj hpush).1
        rw [hquiet] at hpushing
        cases hpushing
    · intro j hj
      left
      rw [hdone, List.mem_append]
      rcases hlocal.claims j hj with hj' | ⟨hle, hlt⟩
      · exact Or.inl hj'
      · right
        rw [htaking] at hlt
        exact List.mem_range'_1.2 ⟨hle, hlt⟩

theorem Inv.recycle (hcap : Capacity cap) (h : Inv cap s) {light : Bool} {m i : ℕ}
    {out : List UInt32} (hpc : s.pc t = .recycle light pos m i out) : Inv cap (s.advance t) := by
  have hat := (h.threads t).at_pc
  rw [hpc] at hat
  obtain ⟨hi, hlen, htake⟩ := hat
  have hph : s.ring.phase (s.base t + i) = .taken := by
    rw [htake.phase i hi, recyclePhase, if_neg (lt_irrefl i), if_pos (by simp)]
  have hmove : Ring.Move cap t s.ring (s.ring.mark (s.base t + i) .free) :=
    .recycle (htake.mine i hi) hph
  have hseq : pos + UInt32.ofNat i + s.q.mask + 1 = wrap (s.base t + i + cap) := by
    have hpos := hcap.pos
    rw [htake.pos_eq, h.mirrors.mask, wrap_add_ofNat, wrap_add, wrap_add_one]
    congr 1
    omega
  have hmirrors : Mirrors cap (s.q.storeSeq (pos + UInt32.ofNat i)
      (pos + UInt32.ofNat i + s.q.mask + 1)) (s.ring.mark (s.base t + i) .free) := by
    rw [hseq, htake.pos_eq, wrap_add_ofNat]
    exact h.mirrors.storeSeq hcap h.ok (p := .free) (by simp [hph]) (by simp [hph]) nofun
  have hin : (s.ring.phase (s.base t + i)).inPush = false := by rw [hph]; rfl
  have hpushing : (s.pc t).pushing = false := by rw [hpc]; rfl
  rw [State.advance, hpc]
  dsimp only
  split_ifs with hlast hlight
  · refine h.inTake hmove rfl hin hmirrors hpushing (by rw [hpc]; rfl) ?_
    refine ⟨hlast, by rw [if_pos hlight]; rwa [if_pos hlight] at hlen, htake.mark fun j hj => ?_⟩
    simp only [recyclePhase, hlight, Bool.true_or, if_true]
    split_ifs <;> first | rfl | omega
  · obtain rfl : light = false := Bool.eq_false_iff.2 hlight
    refine h.inTake hmove rfl hin hmirrors hpushing (by rw [hpc]; rfl) ?_
    refine ⟨hlast, by rwa [if_neg hlight] at hlen, htake.mark fun j hj => ?_⟩
    simp only [readPhase, recyclePhase, Bool.false_or, decide_eq_true_eq, Bool.false_eq_true,
      if_false]
    split_ifs <;> first | rfl | omega
  · have hlen' : out.length = m := by
      split_ifs at hlen <;> omega
    have hfree : Taking (s.ring.mark (s.base t + i) .free) s.delivered t (s.base t) pos m out
        fun _ => .free := by
      refine htake.mark fun j hj => ?_
      simp only [recyclePhase]
      split_ifs <;> first | rfl | omega
    exact h.deliver hmove hin hmirrors hpushing (by rw [hpc]; rfl) hlen' hfree

end pop

/-! ## Every step -/

section step

variable [DecidableEq ι] {s : State ι}

theorem State.advance_pc_ne (s : State ι) {t u : ι} (hu : u ≠ t) : (s.advance t).pc u = s.pc u := by
  rw [State.advance]
  split <;> (try dsimp only) <;> (try split_ifs) <;>
    first | rfl | exact Function.update_of_ne hu _ _

theorem State.advance_base_ne (s : State ι) {t u : ι} (hu : u ≠ t) :
    (s.advance t).base u = s.base u := by
  rw [State.advance]
  split <;> (try dsimp only) <;> (try split_ifs) <;>
    first | rfl | exact Function.update_of_ne hu _ _

/-- A compare-and-swap of `t` that succeeds finds the cells it goes for as the scan left them. -/
def Sound (cap : ℕ) (s : State ι) (t : ι) : Prop :=
  match s.pc t with
  | .pushCas _ pos => s.q.head = pos → s.ring.Vacant cap s.ring.enq.length
  | .popCas pos => s.q.tail = pos → s.ring.AllReady s.ring.deq.length 1
  | .bulkCas _ _ pos m => s.q.tail = pos → s.ring.AllReady s.ring.deq.length m
  | _ => True

omit [DecidableEq ι] in
/-- A prompt use of a cursor is sound. -/
theorem Inv.sound_of_prompt (hcap : Capacity cap) (h : Inv cap s) {t : ι}
    (hprompt : s.Prompt cap t) : Sound cap s t := by
  have hat := (h.threads t).at_pc
  rw [Sound]
  cases hpc : s.pc t with
  | pushCas v pos =>
    rw [hpc] at hat
    obtain ⟨p, hp, hvac⟩ := hat
    intro heq
    obtain rfl := h.head_eq hp (hprompt (by rw [hpc]; rfl)) heq
    exact hvac rfl
  | popCas pos =>
    rw [hpc] at hat
    obtain ⟨p, hp, hready⟩ := hat
    intro heq
    obtain rfl := h.tail_eq hcap hp (hprompt (by rw [hpc]; rfl)) heq
    exact hready rfl
  | bulkCas light maxn pos m =>
    rw [hpc] at hat
    obtain ⟨-, p, hp, hready⟩ := hat
    intro heq
    obtain rfl := h.tail_eq hcap hp (hprompt (by rw [hpc]; rfl)) heq
    exact hready rfl
  | _ => trivial

/-- Every atomic access keeps the invariant, if what it claims or reserves is there. -/
theorem Inv.advance_of_sound (hcap : Capacity cap) (htwo : cap ≠ 1) (h : Inv cap s) (t : ι)
    (hsound : Sound cap s t) : Inv cap (s.advance t) := by
  have hat := (h.threads t).at_pc
  cases hpc : s.pc t with
  | idle =>
    rw [State.advance, hpc]
    exact h
  | pushLoad v =>
    rw [State.advance, hpc]
    exact h.readCursor (by rw [hpc]; exact ⟨rfl, rfl⟩) ⟨_, h.copyOfHead⟩
  | pushSeq v pos =>
    rw [hpc] at hat
    obtain ⟨p, hp⟩ := hat
    have hquiet : (s.pc t).quiet := by rw [hpc]; exact ⟨rfl, rfl⟩
    rw [State.advance, hpc]
    dsimp only
    split_ifs with hzero hneg
    · refine h.goto hquiet ⟨p, hp, ?_⟩
      rintro rfl
      rw [dif_eq_zero, hp.pos_eq] at hzero
      exact h.mirrors.vacant_of_seq hcap htwo h.ok hzero
    · exact h.ret hquiet
    · exact h.goto hquiet trivial
  | pushCas v pos =>
    rw [Sound, hpc] at hsound
    rw [State.advance, hpc]
    dsimp only
    split_ifs with heq
    · exact h.advanceHead hpc (heq.symm.trans h.mirrors.head) (hsound heq)
    · exact h.readCursor (by rw [hpc]; exact ⟨rfl, rfl⟩) ⟨_, h.copyOfHead⟩
  | pushVal v pos =>
    have := h.pushVal hcap hpc
    rw [State.advance, hpc]
    exact this
  | pushDone pos =>
    have := h.pushDone hcap hpc
    rw [State.advance, hpc]
    exact this
  | popLoad =>
    rw [State.advance, hpc]
    exact h.readCursor (by rw [hpc]; exact ⟨rfl, rfl⟩) ⟨_, h.copyOfTail⟩
  | popSeq pos =>
    rw [hpc] at hat
    obtain ⟨p, hp⟩ := hat
    have hquiet : (s.pc t).quiet := by rw [hpc]; exact ⟨rfl, rfl⟩
    rw [State.advance, hpc]
    dsimp only
    split_ifs with hzero hneg
    · refine h.goto hquiet ⟨p, hp, ?_⟩
      rw [dif_eq_zero, hp.pos_eq, wrap_add_one] at hzero
      exact h.allReady_succ hcap (m := 0) (fun _ i hi => absurd hi (Nat.not_lt_zero i)) hzero
    · exact h.ret hquiet
    · exact h.goto hquiet trivial
  | popCas pos =>
    rw [Sound, hpc] at hsound
    have hquiet : (s.pc t).quiet := by rw [hpc]; exact ⟨rfl, rfl⟩
    rw [State.advance, hpc]
    dsimp only
    split_ifs with heq
    · exact h.advanceTail hquiet Nat.one_pos (heq.symm.trans h.mirrors.tail) (hsound heq)
    · exact h.readCursor hquiet ⟨_, h.copyOfTail⟩
  | bulkLoad light maxn =>
    rw [State.advance, hpc]
    exact h.readCursor (by rw [hpc]; exact ⟨rfl, rfl⟩)
      ⟨_, h.copyOfTail, fun _ i hi => absurd hi (Nat.not_lt_zero i)⟩
  | bulkScan light maxn pos m =>
    rw [hpc] at hat
    obtain ⟨p, hp, hready⟩ := hat
    have hquiet : (s.pc t).quiet := by rw [hpc]; exact ⟨rfl, rfl⟩
    rw [State.advance, hpc]
    dsimp only
    split_ifs with hnext hnone
    · refine h.goto hquiet ⟨p, hp, ?_⟩
      have hseq := dif_eq_zero.1 hnext.2
      rw [hp.pos_eq, wrap_add_ofNat, wrap_add_one] at hseq
      exact h.allReady_succ hcap hready hseq
    · exact h.goto hquiet trivial
    · exact h.goto hquiet ⟨Nat.pos_of_ne_zero hnone, p, hp, hready⟩
  | bulkEmpty light maxn pos =>
    have hquiet : (s.pc t).quiet := by rw [hpc]; exact ⟨rfl, rfl⟩
    rw [State.advance, hpc]
    dsimp only
    split_ifs with hneg
    · exact h.ret hquiet
    · exact h.goto hquiet trivial
  | bulkCas light maxn pos m =>
    rw [hpc] at hat
    rw [Sound, hpc] at hsound
    have hquiet : (s.pc t).quiet := by rw [hpc]; exact ⟨rfl, rfl⟩
    rw [State.advance, hpc]
    dsimp only
    split_ifs with heq
    · exact h.advanceTail hquiet hat.1 (heq.symm.trans h.mirrors.tail) (hsound heq)
    · exact h.goto hquiet trivial
  | readVal light pos m i out => exact h.readVal hcap hpc
  | recycle light pos m i out => exact h.recycle hcap hpc

/-- Every sound access is a move of the history. -/
theorem Inv.move (h : Inv cap s) (t : ι) (hsound : Sound cap s t) :
    s.ring.Move cap t (s.advance t).ring := by
  have hat := (h.threads t).at_pc
  rw [State.advance]
  cases hpc : s.pc t with
  | pushCas v pos =>
    rw [Sound, hpc] at hsound
    dsimp only
    split_ifs with heq
    · exact .reserve v (hsound heq)
    · exact .stay _
  | pushVal v pos =>
    rw [hpc] at hat
    obtain ⟨-, he, hph⟩ := hat
    exact .store he hph
  | pushDone pos =>
    rw [hpc] at hat
    obtain ⟨-, ⟨v, he⟩, hph⟩ := hat
    exact .publish he hph
  | popCas pos =>
    rw [Sound, hpc] at hsound
    dsimp only
    split_ifs with heq
    · exact .claim (hsound heq)
    · exact .stay _
  | bulkCas light maxn pos m =>
    rw [Sound, hpc] at hsound
    dsimp only
    split_ifs with heq
    · exact .claim (hsound heq)
    · exact .stay _
  | readVal light pos m i out =>
    rw [hpc] at hat
    obtain ⟨hi, -, htake⟩ := hat
    refine .take (htake.mine i hi) ?_
    rw [htake.phase i hi, readPhase, if_neg (lt_irrefl i)]
  | recycle light pos m i out =>
    rw [hpc] at hat
    obtain ⟨hi, -, htake⟩ := hat
    have hph : s.ring.phase (s.base t + i) = .taken := by
      rw [htake.phase i hi, recyclePhase, if_neg (lt_irrefl i), if_pos (by simp)]
    dsimp only
    split_ifs <;> exact .recycle (htake.mine i hi) hph
  | idle | pushLoad v | popLoad | bulkLoad light maxn => exact .stay _
  | pushSeq v pos | popSeq pos | bulkScan light maxn pos m | bulkEmpty light maxn pos =>
    dsimp only
    split_ifs <;> exact .stay _

/-- Every prompt access keeps the invariant. -/
theorem Inv.advance (hcap : Capacity cap) (htwo : cap ≠ 1) (h : Inv cap s) (t : ι)
    (hprompt : s.Prompt cap t) : Inv cap (s.advance t) :=
  h.advance_of_sound hcap htwo t (h.sound_of_prompt hcap hprompt)

theorem Inv.call (h : Inv cap s) (t : ι) (op : Op) (hidle : s.pc t = .idle) :
    Inv cap (s.call t op) := by
  have hquiet : (s.pc t).quiet := by rw [hidle]; exact ⟨rfl, rfl⟩
  cases op with
  | push v => exact h.goto hquiet trivial
  | pop => exact h.goto hquiet trivial
  | popBulk maxn => exact h.goto hquiet trivial
  | popBulkLight maxn => exact h.goto hquiet trivial

omit [DecidableEq ι] in
theorem Inv.init (hcap : Capacity cap) (fence_light : Bool) :
    Inv cap (.init (UInt32.ofNat cap) fence_light : State ι) where
  ok := .start
  mirrors := .init hcap fence_light
  delivered := ⟨nofun, List.nodup_nil, nofun⟩
  threads _ := ⟨trivial, nofun, nofun⟩

/-- The invariant holds of every state of a prompt run. -/
theorem PromptReach.inv (hcap : Capacity cap) (htwo : cap ≠ 1) {fence_light : Bool}
    (h : PromptReach cap fence_light s) : Inv cap s := by
  induction h with
  | init => exact .init hcap fence_light
  | call t op _ hidle ih => exact ih.call t op hidle
  | advance t _ hprompt ih => exact ih.advance hcap htwo t hprompt

end step

/-! ## The contract -/

/-- What callers of the queue rely on, at one state of a run. -/
structure Delivers (cap : ℕ) (s : State ι) : Prop where
  /-- The cursors stand at the number of positions enqueued and claimed, so that claims are
  contiguous and in push order. -/
  cursors : s.q.head = wrap s.ring.enq.length ∧ s.q.tail = wrap s.ring.deq.length ∧
    s.ring.deq.length ≤ s.ring.enq.length
  /-- A consumer works on the cells of the positions it claimed. -/
  cells : ∀ t light pos m i out, s.pc t = .readVal light pos m i out ∨
    s.pc t = .recycle light pos m i out → pos = wrap (s.base t)
  /-- No position is delivered twice. -/
  once : s.delivered.Nodup
  /-- A position is delivered to who claimed it, with the value that was pushed there. -/
  right : ∀ d ∈ s.popped, ∀ i v, d.vals[i]? = some v →
    s.ring.deq[d.base + i]? = some d.by_ ∧ ∃ u, s.ring.enq[d.base + i]? = some (u, v)
  /-- A claimed position is delivered, or its one consumer is still at work on it. -/
  claimed : ∀ k t, s.ring.deq[k]? = some t → k ∈ s.delivered ∨ s.Takes t k
  /-- From when a value is stored until it is read, it stands in its cell. -/
  intact : ∀ k t v, s.ring.enq[k]? = some (t, v) → (s.ring.phase k).holds →
    (s.q.cells (k % cap)).val = v
  /-- An enqueued position that nobody claimed is there for the next consumer, unless its
  producer is still at work on it. -/
  waiting : ∀ k t v, s.ring.enq[k]? = some (t, v) → s.ring.deq.length ≤ k →
    ((s.pc t).pushing ∧ s.base t = k) ∨
      ((s.q.cells (k % cap)).seq = wrap (k + 1) ∧ (s.q.cells (k % cap)).val = v)

theorem Inv.delivers {s : State ι} (h : Inv cap s) : Delivers cap s where
  cursors := ⟨h.mirrors.head, h.mirrors.tail, h.ok.deq_le_enq⟩
  cells t light pos m i out hpc := by
    have hat := (h.threads t).at_pc
    rcases hpc with hpc | hpc
    · rw [hpc] at hat
      exact hat.2.2.pos_eq
    · rw [hpc] at hat
      exact hat.2.2.pos_eq
  once := h.delivered.nodup
  right := h.delivered.right
  claimed k t hk := (h.threads t).claims k hk
  intact := h.mirrors.val
  waiting k t v hk hle := by
    have hlt := (List.getElem?_eq_some_iff.1 hk).1
    have hroom := h.ok.enq_le
    have hseq := h.mirrors.seq k hlt (by omega)
    have hne : s.ring.phase k ≠ .fresh := fun hf => absurd ((h.ok.fresh_iff k).1 hf) (by omega)
    have hpassed : ¬ (s.ring.phase k).passed := fun hp =>
      absurd ((h.ok.passed_iff k).1 hp) (by omega)
    cases hph : s.ring.phase k with
    | fresh => exact absurd hph hne
    | claimed | taken | free => rw [hph] at hpassed; exact absurd rfl hpassed
    | reserved | stored => exact Or.inl ((h.threads t).pushes k v hk (by rw [hph]; rfl))
    | ready =>
      rw [hph] at hseq
      exact Or.inr ⟨hseq, h.mirrors.val k t v hk (by rw [hph]; rfl)⟩

/-- In a queue of capacity one, a thread pushes twice. -/
private theorem second_push_overwrites :
    ∃ s : State Unit, PromptReach 1 false s ∧ ¬ Delivers 1 s := by
  have h : PromptReach 1 false (.init (UInt32.ofNat 1) false : State Unit) := .init
  -- the first push reserves, stores and publishes position 0
  have h := h.call () (.push 1) rfl
  have h := h.advance () nofun
  have h := h.advance () nofun
  have h := h.advance () fun _ => by decide
  have h := h.advance () nofun
  have h := h.advance () nofun
  -- the second finds the `seq` it expects of a free cell
  have h := h.call () (.push 2) rfl
  have h := h.advance () nofun
  have h := h.advance () nofun
  have h := h.advance () fun _ => by decide
  have h := h.advance () nofun
  refine ⟨_, h, fun hd => ?_⟩
  have hval := hd.intact 0 () 1 rfl rfl
  revert hval
  decide

/-- The states of all prompt runs, of any threads, meet the contract exactly if the capacity is
not one. -/
theorem queue_delivers_iff (hcap : Capacity cap) :
    (∀ (ι : Type) [DecidableEq ι] (fence_light : Bool) (s : State ι),
      PromptReach cap fence_light s → Delivers cap s) ↔ cap ≠ 1 := by
  constructor
  · rintro hall rfl
    obtain ⟨s, hs, hnot⟩ := second_push_overwrites
    exact hnot (hall Unit false s hs)
  · intro htwo ι _ fence_light s hs
    exact (hs.inv hcap htwo).delivers

theorem queue_delivers_iff_two :
    (∀ (ι : Type) [DecidableEq ι] (fence_light : Bool) (s : State ι),
      PromptReach 2 fence_light s → Delivers 2 s) ↔ 2 ≠ 1 :=
  queue_delivers_iff ⟨⟨1, rfl⟩, by decide⟩

/-- A queue of capacity one loses a value. -/
theorem not_delivers_capacity_one :
    Capacity 1 ∧ ¬ ∀ s : State Unit, PromptReach 1 false s → Delivers 1 s := by
  refine ⟨⟨⟨0, rfl⟩, by decide⟩, ?_⟩
  intro hall
  obtain ⟨s, hs, hnot⟩ := second_push_overwrites
  exact hnot (hall s hs)

end FastLlm.ReadyQueue
