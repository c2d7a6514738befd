/-
# The keyboard buffer as a queue

One terminal in focus, with the keys of `handle_scan_code` on one side and the
reads of its foreground task on the other.  The state of this machine is the
keyboard, the terminal and the read that is asleep, if any; a key that wakes the
reader lets it finish `system_terminal_read` before anything else happens, since
interrupts stay off from the wake-up to the end of the read.

A read peeks at `key_buf[i]`, where `i` may equal the number of buffered
characters, so a newline of an earlier line can be taken for the end of this one.
-/
import AuroraOS.Terminal
import AuroraOS.Machine

namespace AuroraOS

open Machine

/-! ## What is in the buffer -/

namespace Terminal

variable (t : Terminal)

@[simp] theorem length_queue : t.queue.length = t.keyBufCnt := by
  simp [queue]

theorem getElem?_queue (i : ℕ) :
    t.queue[i]? = if i < t.keyBufCnt then some (t.keyBuf i) else none := by
  by_cases h : i < t.keyBufCnt
  · simp [queue, h]
  · simp [queue, h]

theorem mem_queue {c : UInt8} : c ∈ t.queue ↔ ∃ i < t.keyBufCnt, t.keyBuf i = c := by
  simp [queue]

theorem take_queue {i : ℕ} (h : i ≤ t.keyBufCnt) :
    (List.range i).map t.keyBuf = t.queue.take i := by
  rw [queue, ← List.map_take, List.take_range, Nat.min_eq_left h]

/-- Storing a character behind the last one. -/
theorem queue_push (c : UInt8) :
    ({ t with keyBuf := Function.update t.keyBuf t.keyBufCnt c
              keyBufCnt := t.keyBufCnt + 1 } : Terminal).queue = t.queue ++ [c] := by
  have hold : ∀ i ∈ List.range t.keyBufCnt,
      Function.update t.keyBuf t.keyBufCnt c i = t.keyBuf i := by
    intro i hi
    exact Function.update_of_ne (Nat.ne_of_lt (List.mem_range.mp hi)) _ _
  simp only [queue, List.range_succ, List.map_append, List.map_singleton, Function.update_self,
    List.map_congr_left hold]

/-- Dropping the last character. -/
theorem queue_pop :
    ({ t with keyBufCnt := t.keyBufCnt - 1 } : Terminal).queue = t.queue.dropLast := by
  rw [queue, queue, List.dropLast_eq_take, List.length_map, List.length_range, ← List.map_take,
    List.take_range, Nat.min_eq_left (Nat.sub_le _ _)]

/-! ## The scan loop -/

/-- What the scan loop finds from index `i` on: `r.1` characters that are not
newlines, and either a newline behind them or the end of the buffer or request. -/
structure ScanSpec (buf : ℕ → UInt8) (nbytes : ℤ) (n i : ℕ) (r : ℕ × Bool) : Prop where
  le : i ≤ r.1
  bound : r.1 ≤ i + n
  plain : ∀ j, i ≤ j → j < r.1 → buf j ≠ newline ∧ (j : ℤ) < nbytes
  hit : r.2 = true → r.1 < i + n ∧ buf r.1 = newline
  miss : r.2 = false → r.1 = i + n ∨ nbytes ≤ r.1

theorem scanKeyBuf_spec (buf : ℕ → UInt8) (nbytes : ℤ) :
    ∀ n i, ScanSpec buf nbytes n i (scanKeyBuf buf nbytes n i)
  | 0, i => ⟨le_rfl, le_rfl, fun j h h' => absurd h' (Nat.not_lt.mpr h), by simp [scanKeyBuf],
      fun _ => Or.inl rfl⟩
  | n + 1, i => by
    rw [scanKeyBuf]
    by_cases hn : (i : ℤ) < nbytes
    · by_cases hb : buf i = newline
      · rw [if_pos hn, if_pos hb]
        exact ⟨le_rfl, by omega, fun j h h' => absurd h' (Nat.not_lt.mpr h), fun _ => ⟨by simp, hb⟩,
          by simp⟩
      · rw [if_pos hn, if_neg hb]
        have ih := scanKeyBuf_spec buf nbytes n (i + 1)
        refine ⟨by have := ih.le; omega, by have := ih.bound; omega, ?_, ?_, ?_⟩
        · intro j hj hj'
          rcases Nat.eq_or_lt_of_le hj with rfl | hlt
          · exact ⟨hb, hn⟩
          · exact ih.plain j hlt hj'
        · intro h
          exact ⟨by have := (ih.hit h).1; omega, (ih.hit h).2⟩
        · intro h
          rcases ih.miss h with h | h
          · exact Or.inl (by omega)
          · exact Or.inr h
    · rw [if_neg hn]
      exact ⟨le_rfl, by omega, fun j h h' => absurd h' (Nat.not_lt.mpr h), by simp,
        fun _ => Or.inr (Int.not_lt.mp hn)⟩

theorem scan_spec (nbytes : ℤ) : ScanSpec t.keyBuf nbytes t.keyBufCnt 0 (t.scan nbytes) :=
  scanKeyBuf_spec _ _ _ _

/-! ## The end of a read -/

/-- The loop that moves the remaining characters copies them down one by one. -/
theorem shiftKeyBuf_eq (d : ℕ) : ∀ (n j : ℕ) (buf : ℕ → UInt8), d ≤ j → j + n ≤ keyboardBufSize →
    ∃ buf', shiftKeyBuf d n j buf = .ok buf' ∧
      ∀ k, buf' k = if j - d ≤ k ∧ k < j - d + n then buf (k + d) else buf k
  | 0, j, buf, _, _ => ⟨buf, rfl, fun k => by rw [if_neg (by omega)]⟩
  | n + 1, j, buf, hd, hn => by
    obtain ⟨buf', hr, hk⟩ := shiftKeyBuf_eq d n (j + 1)
      (Function.update buf (j - d) (buf j)) (by omega) (by omega)
    have hj : j < keyboardBufSize := lt_of_lt_of_le (by omega) hn
    refine ⟨buf', by rw [shiftKeyBuf, if_pos hj, hr], ?_⟩
    intro k
    rw [hk]
    by_cases h1 : k = j - d
    · subst h1
      rw [if_neg (by omega), Function.update_self, if_pos (by omega)]
      congr 1
      omega
    · rw [Function.update_of_ne h1]
      by_cases h2 : j + 1 - d ≤ k ∧ k < j + 1 - d + n
      · rw [if_pos h2, if_pos (by omega), Function.update_of_ne (by omega)]
      · rw [if_neg h2, if_neg (by omega)]

/-- The characters that a read of `i` takes away: one more than it delivers when
`key_buf[i]` is a newline. -/
def toDelete (i : ℕ) : ℕ := i + (if t.keyBuf i = newline then 1 else 0)

/-- **The end of a read**, when the byte it peeks at is a buffered one or no newline:
it takes `toDelete i` characters off the front of the queue and delivers `i` of them. -/
theorem readEnd_eq {i : ℕ} (hcnt : t.keyBufCnt ≤ keyboardBufSize) (hi : i ≤ t.keyBufCnt)
    (hlt : i < keyboardBufSize) (hpeek : i = t.keyBufCnt → t.keyBuf i ≠ newline) :
    ∃ t', t.readEnd i = .ok (t.queue.take i, t') ∧ t'.queue = t.queue.drop (t.toDelete i) ∧
      t'.keyBufCnt = t.keyBufCnt - t.toDelete i ∧ t'.userAskLen = 0 ∧
      (t.toDelete i = 0 → t'.keyBuf = t.keyBuf) := by
  have hd : t.toDelete i ≤ t.keyBufCnt := by
    unfold toDelete
    split
    · next h => exact Nat.lt_of_le_of_ne hi (fun he => hpeek he h)
    · exact hi
  obtain ⟨buf', hr, hk⟩ := shiftKeyBuf_eq (t.toDelete i) (t.keyBufCnt - t.toDelete i)
    (t.toDelete i) t.keyBuf le_rfl (by omega)
  have hmod : (t.keyBufCnt + 256 - t.toDelete i) % 256 = t.keyBufCnt - t.toDelete i := by
    have : t.keyBufCnt ≤ 128 := hcnt
    omega
  refine ⟨{ t with userAskLen := 0, keyBuf := buf', keyBufCnt := t.keyBufCnt - t.toDelete i },
    ?_, ?_, rfl, rfl, ?_⟩
  · unfold toDelete at hr hmod
    unfold readEnd
    rw [if_pos hlt]
    simp only [hr, hmod, take_queue t hi]
    rfl
  · apply List.ext_getElem?
    intro k
    rw [List.getElem?_drop, getElem?_queue, getElem?_queue]
    simp only [hk]
    by_cases h : k < t.keyBufCnt - t.toDelete i
    · rw [if_pos h, if_pos (by omega), if_pos (by omega), Nat.add_comm]
    · rw [if_neg h, if_neg (by omega)]
  · intro h0
    funext k
    simp only [hk, h0, Nat.add_zero, ite_self]

/-! ## Keys -/

/-- Only Enter has the newline as its character. -/
theorem newline_of_getD {table : List UInt8} {code : ℕ}
    (h : ∀ i < table.length, table.getD i 0 = newline → i = enterPress)
    (hc : table.getD code 0 = newline) : code = enterPress := by
  by_cases hlt : code < table.length
  · exact h code hlt hc
  · rw [List.getD_eq_getElem?_getD, List.getElem?_eq_none (Nat.not_lt.mp hlt)] at hc
    exact absurd hc (by decide)

theorem character_ne_newline {kb : Keyboard} {code : ℕ} (h : code ≠ enterPress) :
    kb.character code ≠ newline := by
  intro hc
  apply h
  unfold Keyboard.character at hc
  simp only at hc
  split at hc
  · exact newline_of_getD (by decide) hc
  · split at hc
    · exact newline_of_getD (by decide) hc
    · split at hc
      · exact newline_of_getD (by decide) hc
      · exact newline_of_getD (by decide) hc

/-- A pressed key reaches the backspace and character branches of `handle_scan_code`. -/
def edits (kb : Keyboard) (code : ℕ) : Prop :=
  code ≠ enterPress ∧ code ≠ capslockPress ∧ ¬ (kb.keyFlags ctrlPress ∧ kb.keyFlags cPressed) ∧
    ¬ (kb.keyFlags ctrlPress ∧ kb.keyFlags lPressed)

/-- The number of buffered characters behind those branches. -/
def lengthAfter (kb : Keyboard) (code : ℕ) : ℕ :=
  if kb.keyFlags backspacePress then t.keyBufCnt - 1
  else if kb.character code ≠ 0 ∧ t.keyBufCnt < keyboardBufSize - 1 then t.keyBufCnt + 1
  else t.keyBufCnt

/-- The buffer is within bounds, and full only with a newline at its end. -/
structure Bounded : Prop where
  count : t.keyBufCnt ≤ keyboardBufSize
  full : t.keyBufCnt = keyboardBufSize → t.keyBuf 127 = newline

/-- What typing a key other than Enter does to the buffer. -/
structure Typed (kb : Keyboard) (code : ℕ) (t' : Terminal) : Prop where
  bounded : t'.Bounded
  ask : t'.userAskLen = t.userAskLen
  length : t'.keyBufCnt = t.lengthAfter kb code
  peek : t'.keyBuf t'.keyBufCnt = t.keyBuf t'.keyBufCnt
  plain : newline ∉ t.queue → newline ∉ t'.queue

theorem typeKey_spec (hb : t.Bounded) {kb : Keyboard} {code : ℕ} (hc : code ≠ enterPress) :
    Typed t kb code (t.typeKey kb code) := by
  have hcount : t.keyBufCnt ≤ 128 := hb.count
  unfold typeKey
  by_cases h1 : kb.keyFlags backspacePress
  · rw [if_pos h1]
    by_cases h2 : 0 < t.keyBufCnt
    · rw [if_pos h2]
      refine ⟨⟨?_, ?_⟩, rfl, by simp [lengthAfter, h1], rfl, ?_⟩
      · show t.keyBufCnt - 1 ≤ 128
        omega
      · intro h
        have : t.keyBufCnt - 1 = 128 := h
        omega
      · rw [queue_pop]
        exact fun hn hm => hn (List.mem_of_mem_dropLast hm)
    · rw [if_neg h2]
      exact ⟨hb, rfl, by simp only [lengthAfter, h1, if_true]; omega, rfl, id⟩
  · rw [if_neg h1]
    by_cases h2 : kb.character code ≠ 0 ∧ t.keyBufCnt < keyboardBufSize - 1
    · have hlt : t.keyBufCnt < 127 := h2.2
      simp only [if_pos h2]
      refine ⟨⟨?_, ?_⟩, rfl, by rw [lengthAfter, if_neg h1, if_pos h2], ?_, ?_⟩
      · show t.keyBufCnt + 1 ≤ 128
        omega
      · intro h
        have : t.keyBufCnt + 1 = 128 := h
        omega
      · exact Function.update_of_ne (Nat.succ_ne_self _) _ _
      · rw [queue_push, List.mem_append, List.mem_singleton]
        rintro hn (hm | hm)
        · exact hn hm
        · exact character_ne_newline hc hm.symm
    · simp only [if_neg h2]
      exact ⟨hb, rfl, by rw [lengthAfter, if_neg h1, if_neg h2], rfl, id⟩

/-- What a pressed key does to the buffer, and what its effect says. -/
inductive Pressed (kb : Keyboard) (code : ℕ) : Terminal → KeyEffect → Prop where
  /-- Enter, with a reader. -/
  | enter (ha : t.userAskLen ≠ 0) :
      Pressed kb code { t with
        keyBuf := Function.update t.keyBuf t.keyBufCnt newline
        keyBufCnt := t.keyBufCnt + 1 } { wake := true }
  /-- Enter, without one. -/
  | clear (ha : t.userAskLen = 0) : Pressed kb code { t with keyBufCnt := 0 } {}
  /-- CapsLock, Ctrl+C and Ctrl+L. -/
  | none (interrupt : Bool) : Pressed kb code t { interrupt := interrupt }
  /-- All other keys. -/
  | typed {t' : Terminal} (he : edits kb code) (h : Typed t kb code t') :
      Pressed kb code t' {
        wake := decide (0 < t'.userAskLen ∧ t'.userAskLen ≤ t'.keyBufCnt)
        focus := kb.altTarget }

/-- **A pressed key never writes outside `key_buf`** when the buffer is bounded and
someone who reads has seen no newline in it. -/
theorem pressKey_spec (hb : t.Bounded) (hp : t.userAskLen ≠ 0 → newline ∉ t.queue)
    (kb : Keyboard) (code : ℕ) :
    ∃ kb' t' e, t.pressKey kb code = .ok (kb', t', e) ∧ t.Pressed kb code t' e := by
  unfold pressKey
  by_cases h1 : t.userAskLen ≠ 0 ∧ code = enterPress
  · have hlt : t.keyBufCnt < keyboardBufSize := by
      refine lt_of_le_of_ne hb.count (fun he => hp h1.1 ?_)
      exact (mem_queue t).mpr ⟨127, by rw [he]; decide, hb.full he⟩
    rw [if_pos h1, if_pos hlt]
    exact ⟨_, _, _, rfl, .enter h1.1⟩
  rw [if_neg h1]
  by_cases h2 : t.userAskLen = 0 ∧ code = enterPress
  · rw [if_pos h2]
    exact ⟨_, _, _, rfl, .clear h2.1⟩
  rw [if_neg h2]
  have hc : code ≠ enterPress := by
    intro hc
    by_cases ha : t.userAskLen = 0
    · exact h2 ⟨ha, hc⟩
    · exact h1 ⟨ha, hc⟩
  by_cases h3 : code = capslockPress
  · rw [if_pos h3]
    exact ⟨_, _, _, rfl, .none false⟩
  rw [if_neg h3]
  by_cases h4 : kb.keyFlags ctrlPress ∧ kb.keyFlags cPressed
  · rw [if_pos h4]
    exact ⟨_, _, _, rfl, .none true⟩
  rw [if_neg h4]
  by_cases h5 : kb.keyFlags ctrlPress ∧ kb.keyFlags lPressed
  · rw [if_pos h5, if_pos hb.count]
    exact ⟨_, _, _, rfl, .none false⟩
  rw [if_neg h5]
  exact ⟨_, _, _, rfl, .typed ⟨hc, h3, h4, h5⟩ (typeKey_spec t hb hc)⟩

end Terminal

/-! ## The machine -/

/-- What a finished read saw and gave: the bytes asked for, the buffered characters
in front of it, and the bytes delivered. -/
structure ReadOut where
  asked : ℕ
  before : List UInt8
  bytes : List UInt8

/-- A terminal in focus: the keyboard, the terminal, the read asleep on it with the
length it asked for, and the read that the last event has finished. -/
structure Line where
  kb : Keyboard
  term : Terminal
  reader : Option ℕ
  out : Option ReadOut

/-- A scan code, with the terminals that have a foreground task, or a read. -/
inductive LineEvent where
  | scanCode (code : UInt8) (fg : TermId → Bool)
  | read (nbytes : ℕ)

/-- The focus is still on terminal `id` when `handle_scan_code` comes to the wake-up. -/
def staysInFocus (id : TermId) (fg : TermId → Bool) (target : Option TermId) : Bool :=
  match target with
  | none => true
  | some i => i == id || !fg i

/-- `system_terminal_read` from where `i` is known on. -/
def Line.finish (s : Line) (asked : ℕ) (t : Terminal) (i : ℕ) : Except Fault Line := do
  let (bytes, t') ← t.readEnd i
  .ok { s with term := t', reader := none, out := some ⟨asked, t.queue, bytes⟩ }

/-- One event on the terminal `id`. -/
def lineStep (id : TermId) (s : Line) : LineEvent → Except Fault Line
  | .read nbytes =>
    if s.reader.isSome then .error .disabled
    else
      match s.term.readBegin (Terminal.limitBytes nbytes) with
      | (t, some i) => s.finish nbytes t i
      | (t, none) => .ok { s with term := t, reader := some nbytes, out := none }
  | .scanCode code fg =>
    if scancodePressed ≤ code.toNat then
      .ok { s with kb := s.kb.setKey (code.toNat - scancodePressed) false, out := none }
    else do
      let (kb, t, effect) ← s.term.pressKey (s.kb.setKey code.toNat true) code.toNat
      let s := { s with kb := kb, term := t, out := none }
      match s.reader with
      | some nbytes =>
        if effect.wake && staysInFocus id fg effect.focus then
          s.finish nbytes t (t.scan (Terminal.limitBytes nbytes)).1
        else .ok s
      | none => .ok s

/-- A terminal as it comes out of `terminal_allocate`. -/
def Line.start (kb : Keyboard) (t : Terminal) : Line :=
  { kb := kb, term := t.allocate, reader := none, out := none }

/-! ## The invariant -/

/-- The finished read has delivered the first characters of the queue, none of them a
newline, and has taken away one more exactly if that is a newline. -/
def ReadOut.Faithful (r : ReadOut) (after : List UInt8) : Prop :=
  r.bytes = r.before.take r.bytes.length ∧ r.bytes.length ≤ r.asked ∧ newline ∉ r.bytes ∧
    after = r.before.drop
      (r.bytes.length + if r.before[r.bytes.length]? = some newline then 1 else 0)

/-- What the keyboard buffer promises: it never overflows, and reads are faithful. -/
structure Line.Sound (s : Line) : Prop where
  count : s.term.keyBufCnt ≤ keyboardBufSize
  read : ∀ r, s.out = some r → r.Faithful s.term.queue

/-- The invariant of the machine: a read that is asleep has asked for
`user_ask_len` characters and seen no newline. -/
structure LineInv (s : Line) : Prop where
  bounded : s.term.Bounded
  idle : s.reader = none → s.term.userAskLen = 0
  asleep : ∀ n, s.reader = some n →
    0 < n ∧ s.term.userAskLen = min n keyboardBufSize ∧ newline ∉ s.term.queue
  read : ∀ r, s.out = some r → r.Faithful s.term.queue

/-- The byte behind the last buffered character is not a newline of an earlier line,
whenever a read is about to be satisfied by exactly the buffered characters. -/
def NoStaleNewline (id : TermId) (s : Line) : LineEvent → Prop
  | .read nbytes =>
    s.term.keyBufCnt = min nbytes keyboardBufSize → newline ∉ s.term.queue →
      s.term.keyBuf s.term.keyBufCnt ≠ newline
  | .scanCode code fg =>
    code.toNat < scancodePressed → ∀ n, s.reader = some n →
      let kb := s.kb.setKey code.toNat true
      Terminal.edits kb code.toNat → staysInFocus id fg kb.altTarget →
      s.term.lengthAfter kb code.toNat = min n keyboardBufSize →
        s.term.keyBuf (min n keyboardBufSize) ≠ newline

theorem limitBytes_cast (n : ℕ) : Terminal.limitBytes n = (min n keyboardBufSize : ℕ) := by
  unfold Terminal.limitBytes
  split <;> omega

theorem finish_inv {s : Line} {t : Terminal} {asked : ℕ} (hb : t.Bounded)
    (hpeek : newline ∉ t.queue → t.keyBufCnt ≤ min asked keyboardBufSize →
      t.keyBuf t.keyBufCnt ≠ newline) :
    ∃ s', s.finish asked t (t.scan (Terminal.limitBytes asked)).1 = .ok s' ∧ LineInv s' := by
  have hs := t.scan_spec (Terminal.limitBytes asked)
  rw [limitBytes_cast] at hs ⊢
  generalize hr : t.scan (min asked keyboardBufSize : ℕ) = r at hs
  have hi : r.1 ≤ t.keyBufCnt := by simpa using hs.bound
  have hn : r.1 ≤ min asked keyboardBufSize := by
    by_contra hlt
    have := (hs.plain (r.1 - 1) (by omega) (by omega)).2
    omega
  have hend : r.1 = t.keyBufCnt → newline ∉ t.queue := by
    intro he hm
    obtain ⟨j, hj, hjn⟩ := (Terminal.mem_queue t).mp hm
    exact (hs.plain j (Nat.zero_le _) (he ▸ hj)).1 hjn
  have hlt : r.1 < keyboardBufSize := by
    refine lt_of_le_of_ne (hi.trans hb.count) (fun he => ?_)
    have hcnt : t.keyBufCnt = keyboardBufSize := le_antisymm hb.count (he ▸ hi)
    exact (hs.plain 127 (Nat.zero_le _) (by rw [he]; decide)).1 (hb.full hcnt)
  obtain ⟨t', hread, hq, hcnt, hask, hsame⟩ := t.readEnd_eq hb.count hi hlt
    (fun he => by rw [he]; exact hpeek (hend he) (he ▸ hn))
  refine ⟨{ s with term := t', reader := none, out := some ⟨asked, t.queue, t.queue.take r.1⟩ },
    ?_, ⟨?_, ?_⟩, fun _ => hask, by simp, ?_⟩
  · simp only [Line.finish, hread]
    rfl
  · exact hcnt ▸ (Nat.sub_le _ _).trans hb.count
  · intro hfull
    have h0 : t.toDelete r.1 = 0 := by
      have h1 := hb.count
      have h2 : t'.keyBufCnt = keyboardBufSize := hfull
      have h3 : keyboardBufSize = 128 := rfl
      omega
    rw [hsame h0]
    exact hb.full (by rw [hcnt, h0] at hfull; exact hfull)
  · rintro _ ⟨⟩
    have hlen : (t.queue.take r.1).length = r.1 := by simp [hi]
    refine ⟨by simp [hlen], by simp only [hlen]; omega, ?_, ?_⟩
    · intro hm
      obtain ⟨j, hj, hjn⟩ := List.mem_take_iff_getElem.mp hm
      have hj' : j < r.1 := by simp at hj; omega
      exact (hs.plain j (Nat.zero_le _) hj').1 (by simpa [Terminal.queue] using hjn)
    · have hpk : (t.queue[r.1]? = some newline) ↔ t.keyBuf r.1 = newline := by
        rw [Terminal.getElem?_queue]
        by_cases hc : r.1 < t.keyBufCnt
        · simp [hc]
        · have he : r.1 = t.keyBufCnt := le_antisymm hi (Nat.not_lt.mp hc)
          rw [if_neg hc, he]
          exact ⟨by simp, fun hb => absurd hb (hpeek (hend he) (he ▸ hn))⟩
      simp only [hlen, hpk]
      exact hq

instance (kb : Keyboard) (code : ℕ) : Decidable (Terminal.edits kb code) :=
  inferInstanceAs (Decidable (_ ∧ _ ∧ ¬ (_ ∧ _) ∧ ¬ (_ ∧ _)))

instance (id : TermId) (s : Line) (e : LineEvent) : Decidable (NoStaleNewline id s e) :=
  match e with
  | .read _ => inferInstanceAs (Decidable (_ → _ → ¬ _))
  | .scanCode code fg =>
    match h : s.reader with
    | none => isTrue (by intro _ n hn; rw [h] at hn; cases hn)
    | some n =>
      decidable_of_iff (code.toNat < scancodePressed →
          Terminal.edits (s.kb.setKey code.toNat true) code.toNat →
          staysInFocus id fg (s.kb.setKey code.toNat true).altTarget →
          s.term.lengthAfter (s.kb.setKey code.toNat true) code.toNat = min n keyboardBufSize →
            s.term.keyBuf (min n keyboardBufSize) ≠ newline)
        (by simp [NoStaleNewline, h])

/-- A read keeps the invariant. -/
theorem read_inv {id : TermId} {s : Line} {nbytes : ℕ} (hi : LineInv s) (hr : s.reader = none)
    (hc : NoStaleNewline id s (.read nbytes)) :
    ∃ s', lineStep id s (.read nbytes) = .ok s' ∧ LineInv s' := by
  have hask : (Terminal.limitBytes nbytes % 256).toNat = min nbytes keyboardBufSize := by
    rw [limitBytes_cast]
    have : keyboardBufSize = 128 := rfl
    omega
  set t : Terminal := { s.term with userAskLen := min nbytes keyboardBufSize } with ht
  have hb : t.Bounded := ⟨hi.bounded.count, hi.bounded.full⟩
  have hbegin : s.term.readBegin (Terminal.limitBytes nbytes)
      = if (t.scan (Terminal.limitBytes nbytes)).2 ∨
          ((t.scan (Terminal.limitBytes nbytes)).1 : ℤ) = Terminal.limitBytes nbytes
        then (t, some (t.scan (Terminal.limitBytes nbytes)).1) else (t, none) := by
    rw [Terminal.readBegin, hask]
  have hs := t.scan_spec (Terminal.limitBytes nbytes)
  simp only [lineStep, hr, Option.isSome_none, Bool.false_eq_true, if_false, hbegin]
  by_cases hd : (t.scan (Terminal.limitBytes nbytes)).2 ∨
      ((t.scan (Terminal.limitBytes nbytes)).1 : ℤ) = Terminal.limitBytes nbytes
  · rw [if_pos hd]
    refine finish_inv hb (fun hn hle => hc (le_antisymm hle ?_) hn)
    -- the scan has not met a newline, so it stopped at the length asked for
    rcases hd with hd | hd
    · exact absurd ((Terminal.mem_queue t).mpr ⟨_, by simpa using (hs.hit hd).1, (hs.hit hd).2⟩) hn
    · have hle := hs.bound
      rw [limitBytes_cast] at hd hle
      show min nbytes keyboardBufSize ≤ t.keyBufCnt
      omega
  · rw [if_neg hd]
    rw [not_or] at hd
    have hmiss := hs.miss (by simpa using hd.1)
    have hend : (t.scan (Terminal.limitBytes nbytes)).1 = t.keyBufCnt := by
      rcases hmiss with h | h
      · simpa using h
      · have := hs.plain ((t.scan (Terminal.limitBytes nbytes)).1 - 1)
        have hle := hs.bound
        rw [limitBytes_cast] at this h hd hle
        omega
    refine ⟨_, rfl, hb, by simp, ?_, by simp⟩
    rintro n ⟨⟩
    refine ⟨?_, rfl, ?_⟩
    · by_contra h0
      have h0 : nbytes = 0 := by omega
      rw [limitBytes_cast] at hd
      subst h0
      have := hs.bound
      have := hs.plain 0 (Nat.zero_le _)
      rw [limitBytes_cast] at this
      omega
    · intro hm
      obtain ⟨j, hj, hjn⟩ := (Terminal.mem_queue t).mp hm
      exact (hs.plain j (Nat.zero_le _) (by rw [hend]; exact hj)).1 hjn

/-- A scan code keeps the invariant. -/
theorem scanCode_inv {id : TermId} {s : Line} {code : UInt8} {fg : TermId → Bool} (hi : LineInv s)
    (hc : NoStaleNewline id s (.scanCode code fg)) :
    ∃ s', lineStep id s (.scanCode code fg) = .ok s' ∧ LineInv s' := by
  have hquiet : s.term.userAskLen ≠ 0 → newline ∉ s.term.queue := by
    intro ha
    cases hr : s.reader with
    | none => exact absurd (hi.idle hr) ha
    | some n => exact (hi.asleep n hr).2.2
  simp only [lineStep]
  by_cases hcode : scancodePressed ≤ code.toNat
  · rw [if_pos hcode]
    exact ⟨_, rfl, hi.bounded, hi.idle, hi.asleep, by simp⟩
  rw [if_neg hcode]
  obtain ⟨kb, t, e, hpress, hpressed⟩ :=
    s.term.pressKey_spec hi.bounded hquiet (s.kb.setKey code.toNat true) code.toNat
  simp only [hpress]
  cases hr : s.reader with
  | none =>
    have h0 := hi.idle hr
    cases hpressed with
    | enter ha => exact absurd h0 ha
    | clear ha => exact ⟨_, rfl, ⟨by simp, by simp⟩, fun _ => h0, by simp, by simp⟩
    | none b => exact ⟨_, rfl, hi.bounded, fun _ => h0, by simp, by simp⟩
    | typed he ht => exact ⟨_, rfl, ht.bounded, fun _ => ht.ask.trans h0, by simp, by simp⟩
  | some n =>
    obtain ⟨hpos, hask, hplain⟩ := hi.asleep n hr
    have hne : s.term.userAskLen ≠ 0 := by
      have : keyboardBufSize = 128 := rfl
      omega
    cases hpressed with
    | enter ha =>
      have hlt : s.term.keyBufCnt < keyboardBufSize := by
        refine lt_of_le_of_ne hi.bounded.count (fun he => hplain ?_)
        exact (Terminal.mem_queue _).mpr ⟨127, by rw [he]; decide, hi.bounded.full he⟩
      refine finish_inv ⟨hlt, ?_⟩ ?_
      · intro hfull
        have hcnt : s.term.keyBufCnt + 1 = 128 := hfull
        have h127 : (127 : ℕ) = s.term.keyBufCnt := by omega
        simp [h127]
      · rw [Terminal.queue_push]
        simp
    | clear ha => exact absurd ha hne
    | none b =>
      refine ⟨_, rfl, hi.bounded, by simp, ?_, by simp⟩
      rintro m ⟨⟩
      exact ⟨hpos, hask, hplain⟩
    | typed he ht =>
      have hstay : ∀ s' : Line, s'.term = t → s'.reader = some n → s'.out = none → LineInv s' := by
        rintro ⟨_, _, _, _⟩ rfl rfl rfl
        refine ⟨ht.bounded, by simp, ?_, by simp⟩
        rintro m ⟨⟩
        exact ⟨hpos, ht.ask.trans hask, ht.plain hplain⟩
      simp only [ok_bind]
      split
      · next hw =>
        rw [Bool.and_eq_true, decide_eq_true_eq, ht.ask, hask] at hw
        refine finish_inv ht.bounded (fun _ hle => ?_)
        -- the key has completed the request: the peek is at `key_buf[min n 128]`
        have hcnt : t.keyBufCnt = min n keyboardBufSize := le_antisymm hle hw.1.2
        rw [ht.peek, hcnt]
        exact hc (Nat.not_le.mp hcode) n hr he hw.2 (ht.length ▸ hcnt)
      · exact ⟨_, rfl, hstay _ rfl rfl rfl⟩

/-- **The keyboard buffer is a faithful queue** in every run whose reads never look
at a newline of an earlier line: no index of `key_buf` is out of bounds, the count
stays within the buffer, and every read delivers and removes the right characters. -/
theorem keyBuf_faithful (id : TermId) (kb : Keyboard) (t : Terminal) (events : List LineEvent)
    (ht : t.userAskLen = 0)
    (hm : Meets (lineStep id) (NoStaleNewline id) (Line.start kb t) events) :
    run (lineStep id) (Line.start kb t) events ≠ .error .keyBufBounds ∧
      ∀ s, run (lineStep id) (Line.start kb t) events = .ok s → s.Sound := by
  have hstep : ∀ s e, LineInv s → NoStaleNewline id s e →
      lineStep id s e = .error .disabled ∨ ∃ s', lineStep id s e = .ok s' ∧ LineInv s' := by
    intro s e hi hc
    cases e with
    | scanCode code fg => exact Or.inr (scanCode_inv hi hc)
    | read nbytes =>
      cases hr : s.reader with
      | none => exact Or.inr (read_inv hi hr hc)
      | some n => exact Or.inl (by simp [lineStep, hr])
  have hinv : ∀ s e u, LineInv s → NoStaleNewline id s e → lineStep id s e = .ok u → LineInv u := by
    intro s e u hi hc he
    rcases hstep s e hi hc with h | ⟨s', h, hi'⟩
    · simp [h] at he
    · rw [h] at he
      injection he with he
      exact he ▸ hi'
  have hstart : LineInv (Line.start kb t) :=
    ⟨⟨Nat.zero_le _, by simp [Line.start, Terminal.allocate]⟩, fun _ => ht,
      by simp [Line.start], by simp [Line.start]⟩
  constructor
  · refine run_no_error hinv ?_ hstart hm
    intro s e hi hc he
    rcases hstep s e hi hc with h | ⟨s', h, _⟩
    · simp [h] at he
    · simp [h] at he
  · intro s hs
    have hi := run_invariant hinv hstart hm hs
    exact ⟨hi.bounded.count, hi.read⟩

/-- A line is typed while the first read sleeps, and another character for the second. -/
def twoReads : List LineEvent :=
  [.read 128, .scanCode 0x1E fun _ => false, .scanCode 0x1C fun _ => false,
    .read 2, .scanCode 0x30 fun _ => false, .scanCode 0x2E fun _ => false]

theorem keyBuf_faithful_twoReads :
    run (lineStep 0) (Line.start .released .unused) twoReads ≠ .error .keyBufBounds ∧
      ∀ s, run (lineStep 0) (Line.start .released .unused) twoReads = .ok s → s.Sound :=
  keyBuf_faithful 0 .released .unused twoReads rfl (by decide +kernel)

/-- **A stale newline breaks the queue.**  The line `a` is read and leaves its newline in
`key_buf[1]`; the next read asks for one character, takes that newline for the end
of its line, and `key_buf_cnt` wraps around. -/
theorem keyBuf_stale_newline :
    ∃ s, run (lineStep 0) (Line.start .released .unused)
      [.read 128, .scanCode 0x1E fun _ => false, .scanCode 0x1C fun _ => false,
        .read 1, .scanCode 0x30 fun _ => false] = .ok s ∧ ¬ s.Sound := by
  have h : (run (lineStep 0) (Line.start .released .unused)
      [.read 128, .scanCode 0x1E fun _ => false, .scanCode 0x1C fun _ => false,
        .read 1, .scanCode 0x30 fun _ => false]).toOption.map (fun s => s.term.keyBufCnt)
      = some 255 := by decide +kernel
  obtain ⟨s, hs, hcnt⟩ := toOption_map_eq_some.mp h
  refine ⟨s, hs, fun hsound => ?_⟩
  have := hsound.count
  rw [hcnt] at this
  exact absurd this (by decide)

end AuroraOS
