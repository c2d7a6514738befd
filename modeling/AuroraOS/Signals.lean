/-
# Pending signals

The bits of `pending_signal` under any sequence of sends, blocks, unblocks, deliveries and
`sigreturn`s on one task.  A delivery should take the lowest signal that is pending and
not masked, and leave the others pending; `signal_check` picks that signal, and then clears
the whole word.
-/
import AuroraOS.Interrupts
import AuroraOS.Machine

namespace AuroraOS

open Machine

/-! ## The operations -/

theorem signal_toNat_lt {signal : ℤ} (h : 0 ≤ signal ∧ signal < 5) : signal.toNat < 5 := by
  omega

/-- `IS_SIGNAL`. -/
def isSignal (signal : ℤ) : Option (Fin 5) :=
  if h : 0 ≤ signal ∧ signal < 5 then some ⟨signal.toNat, signal_toNat_lt h⟩ else none

namespace SignalStruct

variable (s : SignalStruct)

/-- `signal_block`. -/
def block (signal : ℕ) : SignalStruct :=
  { s with maskedSignal := s.maskedSignal ||| ((1 : BitVec 32) <<< signal) }

/-- `signal_unblock`. -/
def unblock (signal : ℕ) : SignalStruct :=
  { s with maskedSignal := s.maskedSignal &&& ~~~((1 : BitVec 32) <<< signal) }

/-- `cur_signal`: what is pending and not masked. -/
def curSignal : BitVec 32 := s.pendingSignal &&& ~~~s.maskedSignal

/-- What `signal_check` does to the struct before it turns to the handler. -/
def take : SignalStruct :=
  { s with
    available := s.maskedSignal
    maskedSignal := BitVec.allOnes 32
    pendingSignal := 0 }

/-- Signal `i` is pending. -/
def Pending (i : Fin 5) : Prop := s.pendingSignal.getLsbD i = true

/-- Signal `i` is pending and not masked. -/
def Deliverable (i : Fin 5) : Prop := s.Pending i ∧ s.maskedSignal.getLsbD i = false

instance (i : Fin 5) : Decidable (s.Pending i) := inferInstanceAs (Decidable (_ = _))

instance (i : Fin 5) : Decidable (s.Deliverable i) := inferInstanceAs (Decidable (_ ∧ _))

/-- No bit of `pending_signal` belongs to no signal. -/
def InRange : Prop := ∀ j, 5 ≤ j → s.pendingSignal.getLsbD j = false

variable {s}

theorem curSignal_bit (i : Fin 5) : s.curSignal.getLsbD i = true ↔ s.Deliverable i := by
  have hi : i.val < 32 := by omega
  simp only [curSignal, Deliverable, Pending, BitVec.getLsbD_and, BitVec.getLsbD_not, hi,
    decide_true, Bool.true_and, Bool.and_eq_true, Bool.not_eq_true']

theorem pend_pending (signal i : Fin 5) :
    (s.pend signal).Pending i ↔ s.Pending i ∨ i = signal := by
  have hone : ((1 <<< signal.val : ℕ) : BitVec 32).getLsbD i = true ↔ i = signal := by
    revert signal i
    decide
  rw [Pending, pend, BitVec.getLsbD_or, Bool.or_eq_true, hone, Pending]

theorem pend_inRange (h : s.InRange) (signal : Fin 5) : (s.pend signal).InRange := by
  intro j hj
  have hone : ((1 <<< signal.val : ℕ) : BitVec 32).getLsbD j = false := by
    by_cases hj32 : j < 32
    · interval_cases j <;> revert signal <;> decide
    · exact BitVec.getLsbD_of_ge _ _ (by omega)
  rw [pend, BitVec.getLsbD_or, h j hj, hone]
  rfl

end SignalStruct

/-! ## The signal that is delivered -/

/-- **The loop of `signal_check`** stops at the first bit, or behind all of them. -/
theorem lowestSignal_spec (n : ℕ) :
    ∀ (w : BitVec 32) (i : ℕ), i ≤ lowestSignal n w i ∧ lowestSignal n w i ≤ i + n ∧
      (∀ j, i + j < lowestSignal n w i → w.getLsbD j = false) ∧
      (lowestSignal n w i < i + n → w.getLsbD (lowestSignal n w i - i) = true) := by
  induction n with
  | zero =>
    intro w i
    simp only [lowestSignal]
    refine ⟨le_refl _, le_refl _, ?_, ?_⟩
    · intro j hj
      omega
    · intro hlt
      omega
  | succ n ih =>
    intro w i
    rw [lowestSignal]
    by_cases h0 : w.getLsbD 0 = true
    · rw [if_pos h0]
      refine ⟨le_refl _, by omega, ?_, ?_⟩
      · intro j hj
        omega
      · intro _
        rwa [Nat.sub_self]
    · rw [if_neg h0]
      obtain ⟨hle, hub, hbelow, hat⟩ := ih (w >>> 1) (i + 1)
      refine ⟨by omega, by omega, ?_, ?_⟩
      · intro j hj
        cases j with
        | zero => simpa using h0
        | succ j =>
          have hj' := hbelow j (by omega)
          rw [BitVec.getLsbD_ushiftRight] at hj'
          rwa [Nat.add_comm 1 j] at hj'
      · intro hlt
        have hbit := hat (by omega)
        rw [BitVec.getLsbD_ushiftRight] at hbit
        rwa [show 1 + (lowestSignal n (w >>> 1) (i + 1) - (i + 1)) =
          lowestSignal n (w >>> 1) (i + 1) - i from by omega] at hbit

namespace SignalStruct

variable {s : SignalStruct}

/-- `cur_signal_num`, when there is a signal to deliver. -/
def curSignalNum (s : SignalStruct) : Option ℕ :=
  if s.curSignal = 0 then none else some (lowestSignal 5 s.curSignal 0)

/-- Signal `i` is the one to deliver. -/
def Next (s : SignalStruct) (i : Fin 5) : Prop :=
  s.Deliverable i ∧ ∀ j < i, ¬ s.Deliverable j

/-- There is nothing to deliver when every pending signal is masked. -/
theorem curSignalNum_eq_none (h : s.InRange) :
    s.curSignalNum = none ↔ ∀ i, ¬ s.Deliverable i := by
  rw [curSignalNum]
  constructor
  · intro hn i hi
    have h0 : s.curSignal = 0 := by
      by_contra hne
      rw [if_neg hne] at hn
      cases hn
    rw [← curSignal_bit, h0] at hi
    simp at hi
  · intro hall
    rw [if_pos]
    apply BitVec.eq_of_getLsbD_eq
    intro j hj
    rw [show (0 : BitVec 32).getLsbD j = false from BitVec.getLsbD_zero]
    by_cases h5 : j < 5
    · have hno := hall ⟨j, h5⟩
      rw [← curSignal_bit] at hno
      simpa using hno
    · rw [curSignal, BitVec.getLsbD_and, h j (by omega), Bool.false_and]

/-- **`signal_check` picks** the lowest signal that is pending and not masked. -/
theorem curSignalNum_eq_some (h : s.InRange) {n : ℕ} (hn : s.curSignalNum = some n) :
    ∃ i : Fin 5, n = i.val ∧ s.Next i := by
  have hne : ¬ ∀ i, ¬ s.Deliverable i := by
    intro hall
    rw [(curSignalNum_eq_none h).mpr hall] at hn
    cases hn
  obtain ⟨j, hj⟩ := not_forall_not.mp hne
  rw [curSignalNum] at hn
  split at hn
  · cases hn
  obtain rfl : lowestSignal 5 s.curSignal 0 = n := Option.some.inj hn
  obtain ⟨-, -, hbelow, hat⟩ := lowestSignal_spec 5 s.curSignal 0
  have hlt : lowestSignal 5 s.curSignal 0 < 5 := by
    by_contra hge
    have hclear := hbelow j (by have := j.isLt; omega)
    rw [(curSignal_bit j).mpr hj] at hclear
    cases hclear
  refine ⟨⟨_, hlt⟩, rfl, (curSignal_bit _).mp (hat (by omega)), ?_⟩
  intro m hm hdel
  have hclear := hbelow m (by simpa using Fin.lt_def.mp hm)
  rw [(curSignal_bit m).mpr hdel] at hclear
  cases hclear

end SignalStruct

namespace Kernel

variable (k : Kernel) (noise : Noise)

/-- `signal_check` with nothing to deliver. -/
theorem signalCheck_idle (h : k.runningTask.signals.curSignalNum = none) :
    k.signalCheck noise = .ok k := by
  rw [SignalStruct.curSignalNum] at h
  split at h
  · next h0 => exact if_pos h0
  · cases h

/-- `signal_check` on a signal with a handler of the program: the bits of the struct change,
and nothing else in the kernel. -/
theorem signalCheck_user {i : Fin 5} {address : ℕ}
    (h : k.runningTask.signals.curSignalNum = some i.val)
    (hu : k.runningTask.signals.currentHandlers i = .user address) :
    k.signalCheck noise = .ok (k.modifySignals k.running SignalStruct.take) := by
  rw [SignalStruct.curSignalNum] at h
  split at h
  · cases h
  next h0 =>
    have hnum := Option.some.inj h
    have hlt : lowestSignal 5 k.runningTask.signals.curSignal 0 < 5 := hnum ▸ i.isLt
    obtain rfl : i = ⟨_, hlt⟩ := Fin.ext hnum.symm
    refine (if_neg h0).trans ((dif_pos hlt).trans ?_)
    simp only [SignalStruct.curSignal] at hu
    simp only [hu]
    rfl

/-- `signal_check` on a signal that is left to its default handler. -/
theorem signalCheck_default {i : Fin 5} (h : k.runningTask.signals.curSignalNum = some i.val)
    (hu : k.runningTask.signals.currentHandlers i = .default) :
    k.signalCheck noise =
      (k.modifySignals k.running SignalStruct.take).signalDefaultHandler noise i := by
  rw [SignalStruct.curSignalNum] at h
  split at h
  · cases h
  next h0 =>
    have hnum := Option.some.inj h
    have hlt : lowestSignal 5 k.runningTask.signals.curSignal 0 < 5 := hnum ▸ i.isLt
    obtain rfl : i = ⟨_, hlt⟩ := Fin.ext hnum.symm
    refine (if_neg h0).trans ((dif_pos hlt).trans ?_)
    simp only [SignalStruct.curSignal] at hu
    simp only [hu]
    rfl

end Kernel

/-! ## The machine -/

/-- The signals of a task, with the ghost set of those sent and not delivered since. -/
structure Signals where
  signals : SignalStruct
  owed : Fin 5 → Bool
  /-- A default handler has killed the task. -/
  killed : Bool

/-- An operation on the signals of one task. -/
inductive SignalEvent where
  | send (signal : ℤ)
  | block (signal : ℤ)
  | unblock (signal : ℤ)
  | setHandler (signal : ℤ) (address : ℕ)
  | check
  | sigreturn

namespace Signals

/-- The delivery of a signal: what `signal_check` leaves for the handler, or behind the
default handler. -/
def deliver (s : Signals) (i : Fin 5) : Signals :=
  let owed := Function.update s.owed i false
  match s.signals.currentHandlers i with
  | .user _ => { s with signals := s.signals.take, owed := owed }
  | .default =>
    if i.val ≤ signalInterrupt then { signals := s.signals.take, owed := owed, killed := true }
    else { s with signals := s.signals.take.restoreMask, owed := owed }

/-- One operation. -/
def step (s : Signals) (e : SignalEvent) : Except Fault Signals :=
  if s.killed then .error .disabled
  else
    match e with
    | .send signal =>
      match isSignal signal with
      | none => .ok s
      | some i => .ok { s with signals := s.signals.pend i, owed := Function.update s.owed i true }
    | .block signal =>
      match isSignal signal with
      | none => .ok s
      | some i => .ok { s with signals := s.signals.block i }
    | .unblock signal =>
      match isSignal signal with
      | none => .ok s
      | some i => .ok { s with signals := s.signals.unblock i }
    | .setHandler signal address =>
        .ok { s with signals := (s.signals.setHandler signal address).1 }
    | .check =>
      match s.signals.curSignalNum with
      | none => .ok s
      | some n => if h : n < 5 then .ok (s.deliver ⟨n, h⟩) else .error .signalBounds
    | .sigreturn => .ok { s with signals := s.signals.restoreMask }

/-- The signals of a new task. -/
def start (s : SignalStruct) : Signals :=
  { signals := Kernel.taskSignalInit s, owed := fun _ => false, killed := false }

/-- The operation delivers signal `i`. -/
def Delivers (s : Signals) (e : SignalEvent) (i : Fin 5) : Prop :=
  e = .check ∧ s.signals.curSignalNum = some i.val

/-- The operation sends signal `i`. -/
def Sends (e : SignalEvent) (i : Fin 5) : Prop :=
  ∃ signal, e = .send signal ∧ isSignal signal = some i

/-- What an operation does to the pending signals: it delivers the lowest one that is not
masked, and a signal is pending behind it when it was pending in front of it and has not
been delivered by it, or has been sent by it. -/
structure Contract (s : Signals) (e : SignalEvent) (s' : Signals) : Prop where
  lowest : ∀ i, Delivers s e i → s.signals.Next i
  keeps : ∀ i, s'.signals.Pending i ↔ (s.signals.Pending i ∧ ¬ Delivers s e i) ∨ Sends e i

/-- When a signal is delivered, no other one is pending. -/
def SinglePending (s : Signals) (e : SignalEvent) : Prop :=
  ∀ i, Delivers s e i → ∀ j, s.signals.Pending j → j = i

instance (s : Signals) (e : SignalEvent) : Decidable (SinglePending s e) :=
  match e with
  | .check => decidable_of_iff
      (∀ i : Fin 5, s.signals.curSignalNum = some i.val → ∀ j, s.signals.Pending j → j = i)
      (by simp [SinglePending, Delivers])
  | .send _ | .block _ | .unblock _ | .setHandler _ _ | .sigreturn =>
    isTrue (by rintro i ⟨⟨⟩, -⟩)

variable {s s' : Signals} {e : SignalEvent}

/-- The signals of a struct are those of another one with the same pending word. -/
theorem pending_congr {a b : SignalStruct} (h : a.pendingSignal = b.pendingSignal) (i : Fin 5) :
    a.Pending i ↔ b.Pending i := by
  rw [SignalStruct.Pending, SignalStruct.Pending, h]

theorem not_pending_of_zero {a : SignalStruct} (h : a.pendingSignal = 0) (i : Fin 5) :
    ¬ a.Pending i := by
  rw [SignalStruct.Pending, h]
  simp

/-- A delivery leaves no signal pending. -/
theorem deliver_pending (s : Signals) (i : Fin 5) :
    (s.deliver i).signals.pendingSignal = 0 ∧
      (s.deliver i).owed = Function.update s.owed i false := by
  rw [deliver]
  split
  · exact ⟨rfl, rfl⟩
  · split
    · exact ⟨rfl, rfl⟩
    · exact ⟨rfl, rfl⟩

/-- **The operations other than a delivery** keep every pending signal. -/
theorem step_other (hr : s.signals.InRange) (hs : s.step e = .ok s')
    (hno : ∀ i, ¬ Delivers s e i) :
    s'.signals.InRange ∧ (∀ i, s'.signals.Pending i ↔ s.signals.Pending i ∨ Sends e i) ∧
      ∀ i, s'.owed i = true ↔ s.owed i = true ∨ Sends e i := by
  have hsame : ∀ t : Signals, t.signals.pendingSignal = s.signals.pendingSignal → t.owed = s.owed →
      (∀ i, ¬ Sends e i) → t.signals.InRange ∧
        (∀ i, t.signals.Pending i ↔ s.signals.Pending i ∨ Sends e i) ∧
        ∀ i, t.owed i = true ↔ s.owed i = true ∨ Sends e i := by
    intro t hp ho hsend
    refine ⟨fun j hj => hp ▸ hr j hj, fun i => ?_, fun i => ?_⟩
    · rw [or_iff_left (hsend i)]
      exact pending_congr hp i
    · rw [or_iff_left (hsend i), ho]
  unfold step at hs
  by_cases hk : s.killed = true
  · rw [if_pos hk] at hs
    cases hs
  rw [if_neg hk] at hs
  cases e with
  | send signal =>
    cases hi : isSignal signal with
    | none =>
      simp only [hi] at hs
      cases hs
      refine hsame s rfl rfl ?_
      rintro i ⟨n, ⟨⟩, hn⟩
      rw [hi] at hn
      cases hn
    | some i =>
      simp only [hi] at hs
      cases hs
      have hsends : ∀ j, Sends (.send signal) j ↔ j = i := by
        intro j
        constructor
        · rintro ⟨n, ⟨⟩, hn⟩
          exact Option.some.inj (hn.symm.trans hi)
        · rintro rfl
          exact ⟨signal, rfl, hi⟩
      refine ⟨SignalStruct.pend_inRange hr i, fun j => ?_, fun j => ?_⟩
      · rw [hsends]
        exact SignalStruct.pend_pending i j
      · rw [hsends]
        by_cases hji : j = i
        · simp [hji]
        · simp [hji]
  | block signal =>
    cases hi : isSignal signal with
    | none => simp only [hi] at hs; cases hs; exact hsame s rfl rfl (by rintro i ⟨n, ⟨⟩, -⟩)
    | some i => simp only [hi] at hs; cases hs; exact hsame _ rfl rfl (by rintro i ⟨n, ⟨⟩, -⟩)
  | unblock signal =>
    cases hi : isSignal signal with
    | none => simp only [hi] at hs; cases hs; exact hsame s rfl rfl (by rintro i ⟨n, ⟨⟩, -⟩)
    | some i => simp only [hi] at hs; cases hs; exact hsame _ rfl rfl (by rintro i ⟨n, ⟨⟩, -⟩)
  | setHandler signal address =>
    cases hs
    refine hsame _ ?_ rfl (by rintro i ⟨n, ⟨⟩, -⟩)
    show (s.signals.setHandler signal address).1.pendingSignal = s.signals.pendingSignal
    rw [SignalStruct.setHandler]
    split
    · rfl
    · rfl
  | sigreturn =>
    cases hs
    exact hsame _ rfl rfl (by rintro i ⟨n, ⟨⟩, -⟩)
  | check =>
    cases hn : s.signals.curSignalNum with
    | none =>
      simp only [hn] at hs
      cases hs
      exact hsame s rfl rfl (by rintro i ⟨n, ⟨⟩, -⟩)
    | some n =>
      obtain ⟨i, rfl, -⟩ := SignalStruct.curSignalNum_eq_some hr hn
      exact absurd ⟨rfl, hn⟩ (hno i)

/-- **A delivery** takes the lowest signal that can be delivered, and clears them all. -/
theorem step_deliver (hr : s.signals.InRange) (hs : s.step e = .ok s') {i : Fin 5}
    (hd : Delivers s e i) :
    s.signals.Next i ∧ s'.signals.pendingSignal = 0 ∧ s'.owed = Function.update s.owed i false := by
  obtain ⟨rfl, hn⟩ := hd
  obtain ⟨j, hj, hnext⟩ := SignalStruct.curSignalNum_eq_some hr hn
  obtain rfl : i = j := Fin.ext hj
  unfold step at hs
  by_cases hk : s.killed = true
  · rw [if_pos hk] at hs
    cases hs
  rw [if_neg hk] at hs
  simp only [hn, i.isLt, dite_true] at hs
  cases hs
  exact ⟨hnext, deliver_pending s i⟩

/-- **Every operation** meets its contract unless it delivers a signal while another one is
pending. -/
theorem step_contract (hr : s.signals.InRange) (hs : s.step e = .ok s') :
    Contract s e s' ↔ SinglePending s e := by
  by_cases hd : ∃ i, Delivers s e i
  · obtain ⟨i, hi⟩ := hd
    obtain ⟨hnext, hzero, -⟩ := step_deliver hr hs hi
    have hunique : ∀ j, Delivers s e j → j = i := by
      intro j hj
      exact Fin.ext (Option.some.inj (hj.2.symm.trans hi.2))
    have hempty := not_pending_of_zero hzero
    have hsends : ∀ j, ¬ Sends e j := by
      rintro j ⟨n, rfl, -⟩
      exact absurd hi.1 (by rintro ⟨⟩)
    constructor
    · intro hc k hk j hj
      by_contra hne
      refine hempty j ((hc.keeps j).mpr (Or.inl ⟨hj, fun hdel => hne ?_⟩))
      exact (hunique j hdel).trans (hunique k hk).symm
    · intro hsingle
      refine ⟨fun j hj => hunique j hj ▸ hnext, fun j => iff_of_false (hempty j) ?_⟩
      rintro (⟨hj, hno⟩ | hj)
      · exact hno (hsingle i hi j hj ▸ hi)
      · exact hsends j hj
  · have hno := not_exists.mp hd
    obtain ⟨-, hkeeps, -⟩ := step_other hr hs hno
    refine iff_of_true ⟨fun i hi => absurd hi (hno i), fun i => ?_⟩ fun i hi => absurd hi (hno i)
    rw [hkeeps i, and_iff_left (hno i)]

/-- The invariant: the signals owed to the task are pending. -/
structure Kept (s : Signals) : Prop where
  inRange : s.signals.InRange
  owed : ∀ i, s.owed i = true ↔ s.signals.Pending i

theorem step_kept (h : Kept s) (hc : SinglePending s e) (hs : s.step e = .ok s') : Kept s' := by
  have hcontract := (step_contract h.inRange hs).mpr hc
  by_cases hd : ∃ i, Delivers s e i
  · obtain ⟨i, hi⟩ := hd
    obtain ⟨-, hzero, howed⟩ := step_deliver h.inRange hs hi
    have hempty := not_pending_of_zero hzero
    refine ⟨fun j _ => by rw [hzero]; simp, fun j => iff_of_false ?_ (hempty j)⟩
    rw [howed]
    by_cases hji : j = i
    · simp [hji]
    · rw [Function.update_of_ne hji, h.owed j]
      exact fun hj => hji (hc i hi j hj)
  · obtain ⟨hrange, hkeeps, howed⟩ := step_other h.inRange hs (not_exists.mp hd)
    refine ⟨hrange, fun j => ?_⟩
    rw [howed j, hkeeps j, h.owed j]

theorem start_kept (s : SignalStruct) : Kept (start s) where
  inRange := fun j _ => by simp [start, Kernel.taskSignalInit]
  owed := fun i => by simp [start, Kernel.taskSignalInit, SignalStruct.Pending]

/-- **No pending signal is lost.**  In a run in which no signal is delivered while another one
is pending, a signal is pending as long as it is owed to the task; and every further
operation meets its contract, unless it is such a delivery. -/
theorem signals_kept {init : SignalStruct} {events : List SignalEvent} {s : Signals}
    (hm : Meets step SinglePending (start init) events)
    (hr : run step (start init) events = .ok s) :
    (∀ i, s.owed i = true ↔ s.signals.Pending i) ∧
      ∀ e s', s.step e = .ok s' → (Contract s e s' ↔ SinglePending s e) := by
  have hk : Kept s := run_invariant (fun s e t hi hc ht => step_kept hi hc ht)
    (start_kept init) hm hr
  exact ⟨hk.owed, fun e s' hs => step_contract hk.inRange hs⟩

/-- The signals of a slot that was never used. -/
def blank : SignalStruct where
  pendingSignal := 0
  maskedSignal := 0
  available := 0
  alarmTime := 0
  currentHandlers := fun _ => .default

theorem signals_kept_masked :
    ∃ s, run step (start blank) [.block 4, .send 4, .check, .setHandler 2 4096, .unblock 4, .check,
        .send 2, .check, .send 3] = .ok s ∧ s.owed 3 = true ∧
      (∀ i, s.owed i = true ↔ s.signals.Pending i) ∧
      ∀ e s', s.step e = .ok s' → (Contract s e s' ↔ SinglePending s e) := by
  have hrun : (run step (start blank) [.block 4, .send 4, .check, .setHandler 2 4096, .unblock 4,
      .check, .send 2, .check, .send 3]).toOption.map (·.owed 3) = some true := by decide +kernel
  obtain ⟨s, hs, hret⟩ := toOption_map_eq_some.mp hrun
  exact ⟨s, hs, hret, signals_kept (by decide +kernel) hs⟩

/-- **A delivery can lose a signal**: an alarm and a user signal are sent, and the delivery of
the alarm clears both. -/
theorem check_loses_signal :
    ¬ ∀ (events : List SignalEvent) (s : Signals), run step (start blank) events = .ok s →
      ∀ i, s.owed i = true → s.signals.Pending i := by
  intro hall
  have hrun : (run step (start blank) [.send 3, .send 4, .check]).toOption.map
      (fun s => (s.owed 4, s.signals.pendingSignal.getLsbD 4)) = some (true, false) := by
    decide +kernel
  obtain ⟨s, hs, howed⟩ := toOption_map_eq_some.mp hrun
  rw [Prod.mk.injEq] at howed
  have hpending := hall _ s hs 4 howed.1
  rw [SignalStruct.Pending] at hpending
  exact absurd (hpending.symm.trans howed.2) (by decide)

end Signals

end AuroraOS
