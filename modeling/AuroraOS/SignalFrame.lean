/-
# The frame of a signal handler

`signal_asm.S`: the frame that `signal_check` builds on the stack of the user, and
`system_sigreturn`, which reads it back.  The two sit on either side of the handler and
agree on the frame by fixed offsets only:

    user ESP before                       (higher addresses)
    linkage: `movl $10, %eax; int $0x80`  7 bytes, and one for the alignment
    hardware context                      17 words, EBX lowest
    signal number                         1 word
    return address: the linkage           1 word, user ESP in the handler

The kernel's own hardware context is on the kernel stack, in no memory of the user.
-/
import AuroraOS.Memory
import AuroraOS.Signals

namespace AuroraOS

open Memory Machine

/-! ## The hardware context -/

/-- `hw_context_t`. -/
structure HwContext where
  ebx : BitVec 32
  ecx : BitVec 32
  edx : BitVec 32
  esi : BitVec 32
  edi : BitVec 32
  ebp : BitVec 32
  eax : BitVec 32
  ds : BitVec 32
  es : BitVec 32
  fs : BitVec 32
  irqExpNum : BitVec 32
  errCode : BitVec 32
  eip : BitVec 32
  cs : BitVec 32
  eflags : BitVec 32
  esp : BitVec 32
  ss : BitVec 32
  deriving DecidableEq

/-- `USER_CS`. -/
abbrev userCs : BitVec 32 := 0x23

namespace HwContext

/-- The words of a context, in the order of their addresses. -/
def words (c : HwContext) : List (BitVec 32) :=
  [c.ebx, c.ecx, c.edx, c.esi, c.edi, c.ebp, c.eax, c.ds, c.es, c.fs, c.irqExpNum, c.errCode,
    c.eip, c.cs, c.eflags, c.esp, c.ss]

/-- The context with these words. -/
def ofWords (f : ℕ → BitVec 32) : HwContext where
  ebx := f 0
  ecx := f 1
  edx := f 2
  esi := f 3
  edi := f 4
  ebp := f 5
  eax := f 6
  ds := f 7
  es := f 8
  fs := f 9
  irqExpNum := f 10
  errCode := f 11
  eip := f 12
  cs := f 13
  eflags := f 14
  esp := f 15
  ss := f 16

theorem ofWords_words (c : HwContext) : ofWords (fun i => c.words.getD i 0) = c := rfl

theorem ofWords_congr {f g : ℕ → BitVec 32} (h : ∀ i < 17, f i = g i) : ofWords f = ofWords g := by
  simp [ofWords, h]

end HwContext

/-! ## Building the frame -/

/-- The bytes of `code_0`. -/
def code0 : List UInt8 := [0xB8, 10, 0, 0, 0, 0xCD, 0x80]

/-- The word of `code_0` at an offset. -/
def code0Word (offset : ℕ) : BitVec 32 :=
  load (fun b => code0.getD (b.toNat) 0) (BitVec.ofNat 32 offset)

/-- `signal_set_up_stack_helper`: the context of the kernel and the memory of the user. -/
def signalSetUpStackHelper (handler signum : BitVec 32) (context : HwContext) (m : Mem) :
    HwContext × Mem :=
  let linkage := context.esp - 7
  -- two overlapping moves of 4 bytes put the 7 bytes on the stack
  let m := store m linkage (code0Word 0)
  let m := store m (linkage + 3) (code0Word 3)
  let frame := pushAll (linkage - 1, m) (context.words.reverse ++ [signum, linkage])
  ({ context with esp := frame.1, eip := handler }, frame.2)

/-- `signal_check`, on a signal with a handler of the program.  A default handler has no
frame. -/
def signalCheckFrame (s : SignalStruct) (context : HwContext) (m : Mem) :
    Option (SignalStruct × HwContext × Mem) :=
  if context.cs ≠ userCs then none
  else
    match s.curSignalNum with
    | none => none
    | some n =>
      if h : n < 5 then
        match s.currentHandlers ⟨n, h⟩ with
        | .default => none
        | .user address =>
          some (s.take, signalSetUpStackHelper (BitVec.ofNat 32 address)
            (BitVec.ofNat 32 n) context m)
      else none

/-! ## The way back -/

/-- The two instructions of the linkage. -/
inductive Instruction where
  | movEax (imm : BitVec 32)
  | int (vector : UInt8)

/-- The instruction at an address. -/
def decode (m : Mem) (eip : BitVec 32) : Option Instruction :=
  if m eip = 0xB8 then some (.movEax (load m (eip + 1#32)))
  else if m eip = 0xCD then some (.int (m (eip + 1#32)))
  else none

/-- A program of the user runs from its registers up to `int $0x80`, in at most `n`
instructions: the registers that the processor saves. -/
def runUser (m : Mem) : ℕ → HwContext → Option HwContext
  | 0, _ => none
  | n + 1, r =>
    match decode m r.eip with
    | some (.movEax imm) => runUser m n { r with eax := imm, eip := r.eip + 5#32 }
    | some (.int vector) => if vector = 0x80 then some { r with eip := r.eip + 2#32 } else none
    | none => none

/-- `ret`. -/
def returnNear (m : Mem) (r : HwContext) : HwContext :=
  { r with eip := load m r.esp, esp := r.esp + 4#32 }

/-- `system_sigreturn` on the context of the kernel: the context on the stack of the user, and
the value left in EAX. -/
def systemSigreturn (context : HwContext) (m : Mem) : HwContext × BitVec 32 :=
  let esi := context.esp + 4#32
  -- the loop copies 17 words
  let copied := HwContext.ofWords fun i => load m (esi + BitVec.ofNat 32 (4 * i))
  (copied, copied.eax)

/-- `system_call_entry` up to `signal_check`, for the system call `sigreturn`. -/
def systemCallEntry (r : HwContext) (s : SignalStruct) (m : Mem) :
    Option (HwContext × SignalStruct) :=
  let context := { r with irqExpNum := 0x80, errCode := 0 }
  if context.eax = 10 then
    let (context, eax) := systemSigreturn context m
    some ({ context with eax := eax }, s.restoreMask)
  else none

/-! ## The frame -/

variable (handler signum : BitVec 32) (context : HwContext) (m : Mem)

/-- The stack that the words of the frame are pushed on. -/
def linkageStack : BitVec 32 × Mem :=
  (context.esp - 7 - 1, store (store m (context.esp - 7) (code0Word 0)) (context.esp - 7 + 3)
    (code0Word 3))

/-- The words of the frame, in the order of the pushes. -/
def frameWords : List (BitVec 32) := context.words.reverse ++ [signum, context.esp - 7]

theorem signalSetUpStackHelper_eq :
    signalSetUpStackHelper handler signum context m =
      ({ context with
          esp := (pushAll (linkageStack context m) (frameWords signum context)).1
          eip := handler },
        (pushAll (linkageStack context m) (frameWords signum context)).2) := rfl

/-- The stack pointer of the handler is 84 bytes below that of the interrupted program. -/
theorem frame_pointer :
    (pushAll (linkageStack context m) (frameWords signum context)).1 = context.esp - 84#32 := by
  rw [pushAll_pointer]
  show context.esp - 7 - 1 - 76#32 = context.esp - 84#32
  bv_omega

/-- The linkage is the code of `code_0`. -/
theorem frame_linkage {i : ℕ} (hi : i < 7) :
    (pushAll (linkageStack context m) (frameWords signum context)).2
      (context.esp - 7 + BitVec.ofNat 32 i) = code0.getD i 0 := by
  rw [pushAll_above]
  · show store (store m (context.esp - 7) (code0Word 0)) (context.esp - 7 + 3) (code0Word 3)
      (context.esp - 7 + BitVec.ofNat 32 i) = _
    by_cases h3 : i < 3
    · rw [store_of_le, store_at _ _ _ (by omega)]
      · interval_cases i <;> decide
      · -- the second move starts 3 bytes further up
        generalize context.esp - 7 = a
        interval_cases i <;> bv_omega
    · have hsplit : context.esp - 7 + BitVec.ofNat 32 i =
        context.esp - 7 + 3 + BitVec.ofNat 32 (i - 3) := by
        rw [BitVec.add_assoc]
        congr 1
        interval_cases i <;> rfl
      rw [hsplit, store_at _ _ _ (by omega)]
      interval_cases i <;> first | omega | decide
  · rw [frame_pointer]
    show 76 ≤ _
    generalize context.esp = a
    interval_cases i <;> bv_omega

/-- The handler returns to the linkage. -/
theorem frame_return :
    load (pushAll (linkageStack context m) (frameWords signum context)).2 (context.esp - 84#32) =
      context.esp - 7 := by
  have h := load_pushAll (linkageStack context m) (context.words.reverse ++ [signum])
    (context.esp - 7) (Nat.le_of_ble_eq_true rfl : 4 * ([] : List (BitVec 32)).length + 4 ≤ 2 ^ 32)
  have hlist : context.words.reverse ++ [signum] ++ [context.esp - 7] =
    frameWords signum context := by
    rw [List.append_assoc]
    rfl
  rw [hlist, frame_pointer] at h
  simpa using h

/-- **The frame holds the hardware context**, above the two words for the handler. -/
theorem frame_word {i : ℕ} (hi : i < 17) :
    load (pushAll (linkageStack context m) (frameWords signum context)).2
      (context.esp - 84#32 + 8#32 + BitVec.ofNat 32 (4 * i)) = context.words.getD i 0 := by
  have hsplit : ∃ pre post, frameWords signum context = pre ++ context.words.getD i 0 :: post ∧
      post.length = i + 2 := by
    have hlen : i < context.words.length := hi
    refine ⟨(context.words.drop (i + 1)).reverse,
      (context.words.take i).reverse ++ [signum, context.esp - 7], ?_, ?_⟩
    · rw [frameWords, ← List.cons_append, ← List.append_assoc]
      congr 1
      conv_lhs => rw [← List.take_append_drop i context.words, List.drop_eq_getElem_cons hlen]
      simp [hlen]
    · rw [List.length_append, List.length_reverse, List.length_take, Nat.min_eq_left hlen.le]
      rfl
  obtain ⟨pre, post, hwords, hpost⟩ := hsplit
  have h := load_pushAll (linkageStack context m) pre (context.words.getD i 0)
    (show 4 * post.length + 4 ≤ 2 ^ 32 by omega)
  rw [← hwords, frame_pointer, hpost] at h
  rw [← h]
  congr 1
  rw [BitVec.add_assoc, ← BitVec.ofNat_add]
  congr 2
  omega

/-! ## From the delivery to the return -/

/-- The handler is about to return: the stack pointer is where it was on entry, and nothing
has changed the return address and the linkage.  The words of the context may have
been changed, and so may everything else. -/
structure Returning (context : HwContext) (m : Mem) (r : HwContext) (m' : Mem) : Prop where
  pointer : r.esp = context.esp
  address : load m' context.esp = load m context.esp
  linkage : ∀ i < 7, m' (load m context.esp + BitVec.ofNat 32 i) =
    m (load m context.esp + BitVec.ofNat 32 i)

/-- A word of the context that the handler finds on its stack. -/
def savedWord (context : HwContext) (m : Mem) (i : ℕ) : BitVec 32 :=
  load m (context.esp + 8#32 + BitVec.ofNat 32 (4 * i))

/-- The linkage calls `sigreturn`. -/
theorem runUser_linkage {m : Mem} {r : HwContext} {a : BitVec 32} (hr : r.eip = a)
    (h : ∀ i < 7, m (a + BitVec.ofNat 32 i) = code0.getD i 0) :
    runUser m 2 r = some { r with eax := 10, eip := a + 7#32 } := by
  have hcode : m a = 0xB8 := by
    have h0 := h 0 (by omega)
    rwa [BitVec.add_zero] at h0
  have hmov : decode m a = some (.movEax 10) := by
    have himm : load m (a + 1#32) = 10 := by
      have hword : ∀ i < 4, m (a + 1#32 + BitVec.ofNat 32 i) =
          store m (a + 1#32) 10 (a + 1#32 + BitVec.ofNat 32 i) := by
        intro i hi
        rw [store_at _ _ _ hi, BitVec.add_assoc,
          show (1#32 : BitVec 32) = BitVec.ofNat 32 1 from rfl,
          ← BitVec.ofNat_add, h (1 + i) (by omega)]
        interval_cases i <;> decide
      rw [load_congr hword, load_store]
    rw [decode, if_pos hcode, himm]
  have hint : decode m (a + 5#32) = some (.int 0x80) := by
    have h5 : m (a + 5#32) = 0xCD := h 5 (by omega)
    have h6 : m (a + 6#32) = 0x80 := h 6 (by omega)
    rw [decode, if_neg (by rw [h5]; decide), if_pos h5]
    rw [BitVec.add_assoc]
    exact congrArg (fun v => some (Instruction.int v)) h6
  rw [runUser, hr, hmov]
  simp only [runUser, hint, if_true]
  congr 2
  rw [BitVec.add_assoc]
  rfl

/-- A handler that returns to the linkage ends up in `system_sigreturn`, which reads the words
above the signal number. -/
theorem enters_sigreturn {frame r : HwContext} {m : Mem} {a : BitVec 32} (hp : r.esp = frame.esp)
    (ha : load m frame.esp = a) (hl : ∀ i < 7, m (a + BitVec.ofNat 32 i) = code0.getD i 0)
    (t : SignalStruct) :
    ∃ trap, runUser m 2 (returnNear m r) = some trap ∧
      systemCallEntry trap t m = some (HwContext.ofWords (savedWord frame m), t.restoreMask) := by
  have heip : (returnNear m r).eip = a := by
    rw [returnNear, hp, ha]
  refine ⟨_, runUser_linkage heip hl, ?_⟩
  have hesi : ∀ i, load m (r.esp + 4#32 + 4#32 + BitVec.ofNat 32 (4 * i)) =
    savedWord frame m i := by
    intro i
    rw [savedWord, hp, BitVec.add_assoc frame.esp]
    rfl
  simp only [systemCallEntry, systemSigreturn, returnNear, if_true, hesi]

/-- Operations on the signals that can come between the delivery and the `sigreturn`: the
kernel never unblocks a signal, and the program returns from its handler once. -/
def DuringHandler (_ : Signals) : SignalEvent → Prop
  | .unblock _ => False
  | .sigreturn => False
  | _ => True

/-- While the handler runs everything stays masked, so no other delivery overwrites the mask
that has been put away. -/
theorem mask_kept {available : BitVec 32} {t t' : Signals} {events : List SignalEvent}
    (h : t.signals.maskedSignal = BitVec.allOnes 32 ∧ t.signals.available = available)
    (hm : Machine.Meets Signals.step DuringHandler t events)
    (hr : run Signals.step t events = .ok t') :
    t'.signals.maskedSignal = BitVec.allOnes 32 ∧ t'.signals.available = available := by
  refine run_invariant (I := fun t => t.signals.maskedSignal = BitVec.allOnes 32 ∧
    t.signals.available = available) ?_ h hm hr
  rintro t e u ⟨hmask, havail⟩ hc ht
  unfold Signals.step at ht
  by_cases hk : t.killed = true
  · rw [if_pos hk] at ht
    cases ht
  rw [if_neg hk] at ht
  cases e with
  | send signal =>
    cases hi : isSignal signal <;> simp only [hi] at ht <;> cases ht <;> exact ⟨hmask, havail⟩
  | block signal =>
    cases hi : isSignal signal with
    | none => simp only [hi] at ht; cases ht; exact ⟨hmask, havail⟩
    | some i =>
      simp only [hi] at ht
      cases ht
      refine ⟨?_, havail⟩
      show t.signals.maskedSignal ||| _ = _
      rw [hmask, BitVec.allOnes_or]
  | unblock signal => exact hc.elim
  | setHandler signal address =>
    cases ht
    show (t.signals.setHandler signal address).1.maskedSignal = _ ∧
      (t.signals.setHandler signal address).1.available = _
    rw [SignalStruct.setHandler]
    split <;> exact ⟨hmask, havail⟩
  | check =>
    have hidle : t.signals.curSignalNum = none := by
      rw [SignalStruct.curSignalNum, SignalStruct.curSignal, hmask, BitVec.not_allOnes,
        BitVec.and_zero]
      rfl
    simp only [hidle] at ht
    cases ht
    exact ⟨hmask, havail⟩
  | sigreturn => exact hc.elim

/-- What the whole way from the delivery of a signal to the end of `sigreturn` comes to:
the linkage enters the kernel, the context of the kernel consists of the words saved on the
stack of the user, which the handler may have changed, and the mask is the old one. -/
structure Restored (context : HwContext) (s : SignalStruct) (frame : HwContext) (m' : Mem)
    (r' : HwContext) (t : SignalStruct) : Prop where
  enters : ∃ trap, runUser m' 2 (returnNear m' r') = some trap ∧
    systemCallEntry trap t m' = some (HwContext.ofWords (savedWord frame m'), t.restoreMask)
  mask : t.restoreMask.maskedSignal = s.maskedSignal
  transparent : (∀ i < 17, savedWord frame m' i = context.words.getD i 0) →
    HwContext.ofWords (savedWord frame m') = context

/-- **Signal delivery followed by `sigreturn` is transparent.**  The frame holds the words of the
interrupted context, and when the handler returns, whatever it has done to other memory and
registers, and whatever is sent or blocked in between, `sigreturn` restores the saved words as
they are then, and the signal mask of before the delivery.  With the words unchanged this is
the interrupted context. -/
theorem sigreturn_transparent {s s₁ : SignalStruct} {context frame : HwContext} {m m₁ : Mem}
    (h : signalCheckFrame s context m = some (s₁, frame, m₁)) {r : HwContext} {m' : Mem}
    (hr : Returning frame m₁ r m') {t t' : Signals} (ht : t.signals = s₁)
    {events : List SignalEvent} (hm : Machine.Meets Signals.step DuringHandler t events)
    (hrun : run Signals.step t events = .ok t') :
    (∀ i < 17, savedWord frame m₁ i = context.words.getD i 0) ∧
      Restored context s frame m' r t'.signals := by
  rw [signalCheckFrame] at h
  split at h
  · cases h
  split at h
  · cases h
  next n hn =>
  split at h
  · next hlt =>
    split at h
    · cases h
    next address haddr =>
    rw [signalSetUpStackHelper_eq] at h
    simp only [Option.some.injEq, Prod.mk.injEq] at h
    obtain ⟨rfl, rfl, rfl⟩ := h
    have hsaved : ∀ i < 17, savedWord { context with
        esp := (pushAll (linkageStack context m) (frameWords (BitVec.ofNat 32 n) context)).1
        eip := BitVec.ofNat 32 address }
        (pushAll (linkageStack context m) (frameWords (BitVec.ofNat 32 n) context)).2 i =
          context.words.getD i 0 := by
      intro i hi
      rw [savedWord]
      simp only [frame_pointer]
      exact frame_word _ _ _ hi
    refine ⟨hsaved, ?_, ?_, ?_⟩
    · have hret := frame_return (BitVec.ofNat 32 n) context m
      rw [← frame_pointer (BitVec.ofNat 32 n)] at hret
      refine enters_sigreturn hr.pointer (hr.address.trans hret) (fun i hi => ?_) t'.signals
      have hlinkage := hr.linkage i hi
      rw [hret] at hlinkage
      exact hlinkage.trans (frame_linkage _ _ _ hi)
    · have hstart : t.signals.maskedSignal = BitVec.allOnes 32 ∧
          t.signals.available = s.maskedSignal := by
        rw [ht]
        exact ⟨rfl, rfl⟩
      exact (mask_kept hstart hm hrun).2
    · intro hsame
      rw [HwContext.ofWords_congr hsame, HwContext.ofWords_words]
  · cases h

/-- A program that handles signal 4, which is pending. -/
def handling : SignalStruct :=
  { Signals.blank with
    pendingSignal := 16
    maskedSignal := 4
    currentHandlers := fun _ => .user 0x08048500 }

/-- A program of the user with a stack. -/
def interrupted : HwContext where
  ebx := 1
  ecx := 2
  edx := 3
  esi := 4
  edi := 5
  ebp := 0x083FFFF0
  eax := 7
  ds := 0x2B
  es := 0x2B
  fs := 0x2B
  irqExpNum := 0
  errCode := 0
  eip := 0x08048100
  cs := 0x23
  eflags := 0x202
  esp := 0x083FFF00
  ss := 0x2B

theorem sigreturn_transparent_handled :
    ∃ s₁ frame m₁, signalCheckFrame handling interrupted (fun _ => 0) = some (s₁, frame, m₁) ∧
      ∃ t', run Signals.step ⟨s₁, fun _ => false, false⟩ [.send 3, .check] = .ok t' ∧
        Restored interrupted handling frame m₁ frame t'.signals := by
  have hcheck : signalCheckFrame handling interrupted (fun _ => 0) =
      some (handling.take, signalSetUpStackHelper 0x08048500 4 interrupted (fun _ => 0)) := rfl
  have hquiet : Machine.Meets Signals.step DuringHandler ⟨handling.take, fun _ => false, false⟩
      [.send 3, .check] := ⟨trivial, fun _ _ => ⟨trivial, fun _ _ => trivial⟩⟩
  exact ⟨_, _, _, hcheck, _, rfl,
    (sigreturn_transparent hcheck ⟨rfl, rfl, fun _ _ => rfl⟩ rfl hquiet rfl).2⟩

end AuroraOS
