/-
# Formatted output

`printf` of `lib.c`, with `itoa`, `strrev`, `strlen` and `puts` on its conversion buffers.  The
buffers are arrays on the stack that hold anything before; all subscripts are checked.

`Directive` is what a format string is made of, with the text that it stands for: numbers are
printed as their canonical numerals.
-/
import AuroraOS.Numerals
import AuroraOS.Buffers
import AuroraOS.CString

namespace AuroraOS.Printf

open CheckedArray Machine Numerals

/-! ## `itoa` -/

/-- A character constant. -/
def ascii (c : Char) : UInt8 := c.toNat.toUInt8

/-- `lookup` of `itoa`, with its NUL. -/
def lookup : ℤ → UInt8 :=
  store (fun _ => 0) 0 ("0123456789ABCDEFGHIJKLMNOPQRSTUVWXYZ".toList.map ascii)

/-- The bounds of `lookup`. -/
def lookupBounds : Bounds := .ofSize 37

/-- The elements of a buffer from index `i` on. -/
def elementsFrom (b : Bounds) (i : ℤ) : ℕ := (b.last + 1 - i).toNat

section Code

variable (b : Bounds)

/-- `strlen`, of the string from index `s` on. -/
def strlen (s : ℤ) (arr : ℤ → UInt8) : Except OutOfBounds ℕ :=
  lengthLoop b arr s (elementsFrom b s) 0

/-- `strrev`. -/
def strrev (s : ℤ) (arr : ℤ → UInt8) : Except OutOfBounds (ℤ → UInt8) := do
  let len ← strlen b s arr
  reverseLoop b s len 0 ((len : ℤ) - 1) arr

/-- The characters that `puts` prints. -/
def puts (s : ℤ) (arr : ℤ → UInt8) : Except OutOfBounds (List UInt8) :=
  textLoop b arr (elementsFrom b s) s

/-- The loop of `itoa`: the digits from the lowest place value on.  The result is the buffer and
`newbuf`. -/
def itoaLoop (radix : BitVec 32) :
    ℕ → BitVec 32 → (ℤ → UInt8) → ℤ → Except OutOfBounds ((ℤ → UInt8) × ℤ)
  | 0, newval, buf, newbuf => if newval = 0 then .ok (buf, newbuf) else .error ⟨newbuf⟩
  | n + 1, newval, buf, newbuf =>
    if newval = 0 then .ok (buf, newbuf)
    else do
      let c ← lookupBounds.get lookup (newval % radix).toInt
      let buf ← b.set buf newbuf c
      itoaLoop radix n (newval / radix) buf (newbuf + 1)

/-- `itoa`, to the buffer from index `pos` on. -/
def itoa (value : BitVec 32) (buf : ℤ → UInt8) (pos : ℤ) (radix : BitVec 32) :
    Except OutOfBounds (ℤ → UInt8) :=
  if value = 0 then do
    let buf ← b.set buf pos (ascii '0')
    b.set buf (pos + 1) 0
  else do
    let r ← itoaLoop b radix (elementsFrom b pos) value buf pos
    let buf ← b.set r.1 r.2 0
    strrev b pos buf

/-- The loop of `%#x` that pads with zeros, from index `i` on. -/
def padLoop : ℕ → ℤ → (ℤ → UInt8) → Except OutOfBounds (ℤ → UInt8)
  | 0, _, buf => .ok buf
  | n + 1, i, buf => do
    let buf ← b.set buf i (ascii '0')
    padLoop n (i + 1) buf

end Code

/-! ## `printf` -/

/-- `int8_t conv_buf[64]`, of `%x`. -/
def hexBuf : Bounds := .ofSize 64

/-- `int8_t conv_buf[36]`, of `%u` and `%d`. -/
def decimalBuf : Bounds := .ofSize 36

section Code

-- what a conversion buffer holds before
variable (junk : ℤ → UInt8)

/-- The case `'x'`. -/
def printHex (alternate : Bool) (arg : BitVec 32) : Except OutOfBounds (List UInt8) :=
  if alternate then do
    let buf ← itoa hexBuf arg junk 8 16
    let startingIndex ← strlen hexBuf 8 buf
    let buf ← padLoop hexBuf (8 - startingIndex) startingIndex buf
    puts hexBuf startingIndex buf
  else do
    let buf ← itoa hexBuf arg junk 0 16
    puts hexBuf 0 buf

/-- The case `'u'`. -/
def printUnsigned (arg : BitVec 32) : Except OutOfBounds (List UInt8) := do
  let buf ← itoa decimalBuf arg junk 0 10
  puts decimalBuf 0 buf

/-- The case `'d'`. -/
def printSigned (arg : BitVec 32) : Except OutOfBounds (List UInt8) := do
  let buf ←
    if arg.toInt < 0 then do
      let buf ← decimalBuf.set junk 0 (ascii '-')
      itoa decimalBuf (-arg) buf 1 10
    else itoa decimalBuf arg junk 0 10
  puts decimalBuf 0 buf

/-- The characters that `puts` prints of a string in memory. -/
def putsAt (m : Memory.Mem) (s : BitVec 32) : List UInt8 :=
  (List.range (Memory.strlen m s)).map fun i => m (s + BitVec.ofNat 32 i)

end Code

section Code

-- the memory, what the conversion buffers hold before, and the words behind `format` on the stack
variable (m : Memory.Mem) (junk : ℕ → ℤ → UInt8) (args : ℕ → BitVec 32)

/-- The conversion that ends with the character `c`, with the characters that it prints and `esp`
behind it. -/
def conversion (alternate : Bool) (c : UInt8) (esp : ℕ) : Except OutOfBounds (List UInt8 × ℕ) :=
  if c = ascii '%' then .ok ([ascii '%'], esp)
  else if c = ascii 'x' then do
    let out ← printHex (junk esp) alternate (args esp)
    .ok (out, esp + 1)
  else if c = ascii 'u' then do
    let out ← printUnsigned (junk esp) (args esp)
    .ok (out, esp + 1)
  else if c = ascii 'd' then do
    let out ← printSigned (junk esp) (args esp)
    .ok (out, esp + 1)
  else if c = ascii 'c' then .ok ([UInt8.ofBitVec ((args esp).setWidth 8)], esp + 1)
  else if c = ascii 's' then .ok (putsAt m (args esp), esp + 1)
  else .ok ([], esp)

/-- The loop of `printf` from position `pos` of the format on, with the bytes that are there:
outside of a conversion, or behind `%` with `alternate`.  The result is the characters that are
printed and the position of the NUL. -/
def printfLoop : Option Bool → ℕ → ℕ → List UInt8 → Except OutOfBounds (List UInt8 × ℕ)
  | _, _, pos, [] => .error ⟨pos⟩
  | none, esp, pos, c :: rest =>
    if c = 0 then .ok ([], pos)
    else if c = ascii '%' then printfLoop (some false) esp (pos + 1) rest
    else do
      let r ← printfLoop none esp (pos + 1) rest
      .ok (c :: r.1, r.2)
  | some alternate, esp, pos, c :: rest =>
    if c = ascii '#' then printfLoop (some true) esp (pos + 1) rest
    else do
      -- an unknown conversion prints nothing; even a NUL here does not end the format
      let out ← conversion m junk args alternate c esp
      let r ← printfLoop none out.2 (pos + 1) rest
      .ok (out.1 ++ r.1, r.2)

/-- `printf`, with the bytes from `format` on: the characters that it prints, and what it
returns. -/
def printf (format : List UInt8) : Except OutOfBounds (List UInt8 × ℕ) :=
  printfLoop m junk args none 0 0 format

end Code

/-! ## Digits -/

/-- The character of a digit. -/
def digitChar (d : ℕ) : UInt8 := lookup d

/-- The usual value of a digit character. -/
def digitValue (c : UInt8) : ℕ :=
  if c.toNat ≤ 57 then c.toNat - 48 else c.toNat - 55

theorem digitValue_digitChar : ∀ d < 36, digitValue (digitChar d) = d := by decide +kernel

theorem digitChar_ne_zero : ∀ d < 36, digitChar d ≠ 0 := by decide +kernel

theorem digitChar_zero : digitChar 0 = ascii '0' := by decide +kernel

/-- The canonical numeral of a number. -/
abbrev numeralOf (radix n : ℕ) : List UInt8 := numeral digitChar radix n

/-- The text is the canonical numeral of the number. -/
abbrev IsNumeralOf (radix n : ℕ) (s : List UInt8) : Prop :=
  IsNumeral digitChar digitValue radix n s

theorem isNumeralOf {radix : ℕ} (h2 : 2 ≤ radix) (h36 : radix ≤ 36) (n : ℕ) :
    IsNumeralOf radix n (numeralOf radix n) :=
  isNumeral_numeral h2 (fun d hd => digitValue_digitChar d (by omega)) n

theorem numeralOf_ne_zero {radix : ℕ} (h2 : 2 ≤ radix) (h36 : radix ≤ 36) (n : ℕ) :
    ∀ c ∈ numeralOf radix n, c ≠ 0 := by
  intro c hc
  obtain ⟨d, hd, rfl⟩ := mem_numeral h2 hc
  exact digitChar_ne_zero d (by omega)

/-! ## `itoa` writes the numeral -/

section Itoa

variable {b : Bounds} {buf : ℤ → UInt8} {pos : ℤ} {value r : BitVec 32}

theorem puts_store {s : List UInt8} (hs : ∀ c ∈ s, c ≠ 0) (rest : List UInt8)
    (hfirst : b.first ≤ pos) (hlast : pos + s.length ≤ b.last) :
    puts b pos (store buf pos (s ++ 0 :: rest)) = .ok s :=
  textLoop_eq s (hasText_store rest hs) hfirst hlast (by rw [elementsFrom]; omega)

theorem strlen_store {s : List UInt8} (hs : ∀ c ∈ s, c ≠ 0) (rest : List UInt8)
    (hfirst : b.first ≤ pos) (hlast : pos + s.length ≤ b.last) :
    strlen b pos (store buf pos (s ++ 0 :: rest)) = .ok s.length := by
  have htext : HasText (store buf pos (s ++ 0 :: rest)) (pos + (0 : ℕ)) s := by
    rw [Nat.cast_zero, add_zero]
    exact hasText_store rest hs
  rw [strlen, lengthLoop_eq s htext (by omega) (by omega) (by rw [elementsFrom]; omega),
    Nat.zero_add]

/-- `strrev` turns a string around in its place. -/
theorem strrev_store {s : List UInt8} (hs : ∀ c ∈ s, c ≠ 0) (hfirst : b.first ≤ pos)
    (hlast : pos + s.length ≤ b.last) :
    strrev b pos (store buf pos (s ++ [0])) = .ok (store buf pos (s.reverse ++ [0])) := by
  have hend : pos + ((s.length : ℤ) - 1) = pos + s.length - 1 := by omega
  rw [strrev, strlen_store hs [] hfirst hlast, ok_bind,
    reverseLoop_eq pos s.length (by omega) (by omega) (by omega), add_zero, hend, reflect_store]

/-- A digit is looked up. -/
theorem lookup_digit (h2 : 2 ≤ r.toNat) (h36 : r.toNat ≤ 36) (newval : BitVec 32) :
    lookupBounds.get lookup (newval % r).toInt =
      .ok (digitChar (newval.toNat % r.toNat)) := by
  have hlt : newval.toNat % r.toNat < r.toNat := Nat.mod_lt _ (by omega)
  have hint : (newval % r).toInt = ((newval.toNat % r.toNat : ℕ) : ℤ) := by
    rw [BitVec.toInt_eq_toNat_of_lt, BitVec.toNat_umod]
    rw [BitVec.toNat_umod]
    omega
  have hhas : lookupBounds.Has ((newval.toNat % r.toNat : ℕ) : ℤ) :=
    Bounds.ofSize_has.mpr ⟨by omega, by omega⟩
  rw [hint, Bounds.get_eq hhas, digitChar]

/-- **The loop** stores the digits, from the lowest place value on. -/
theorem itoaLoop_eq (h2 : 2 ≤ r.toNat) (h36 : r.toNat ≤ 36) (n : ℕ) :
    ∀ {newval : BitVec 32} {buf : ℤ → UInt8} {pos : ℤ}, b.first ≤ pos →
      pos + (Nat.digits r.toNat newval.toNat).length ≤ b.last + 1 →
      (Nat.digits r.toNat newval.toNat).length ≤ n →
        itoaLoop b r n newval buf pos =
          .ok (store buf pos ((Nat.digits r.toNat newval.toNat).map digitChar),
            pos + (Nat.digits r.toNat newval.toNat).length) := by
  induction n with
  | zero =>
    intro newval buf pos hfirst hlast hn
    have hnil := List.length_eq_zero_iff.mp (Nat.le_zero.mp hn)
    have hzero : newval = 0 := BitVec.eq_of_toNat_eq (Nat.digits_eq_nil_iff_eq_zero.mp hnil)
    rw [itoaLoop, if_pos hzero, hnil, List.map_nil, store_nil, List.length_nil, Nat.cast_zero,
      add_zero]
  | succ n ih =>
    intro newval buf pos hfirst hlast hn
    rw [itoaLoop]
    by_cases hzero : newval = 0
    · have hnil : Nat.digits r.toNat newval.toNat = [] := by
        rw [hzero]
        exact Nat.digits_zero _
      rw [if_pos hzero, hnil, List.map_nil, store_nil, List.length_nil, Nat.cast_zero, add_zero]
    · have hpos : 0 < newval.toNat :=
        Nat.pos_of_ne_zero fun h => hzero (BitVec.eq_of_toNat_eq h)
      have hdigits := Nat.digits_def' (b := r.toNat) h2 hpos
      rw [hdigits, List.length_cons] at hlast hn
      push_cast at hlast
      have hhas : b.Has pos := ⟨hfirst, by omega⟩
      have hdiv : (newval / r).toNat = newval.toNat / r.toNat := BitVec.toNat_udiv
      have hnext : pos + 1 + ((Nat.digits r.toNat (newval.toNat / r.toNat)).length : ℤ) =
          pos + ((Nat.digits r.toNat (newval.toNat / r.toNat)).length + 1 : ℕ) := by
        push_cast
        omega
      rw [if_neg hzero, lookup_digit h2 h36, ok_bind, Bounds.set_eq hhas, ok_bind,
        ih (by omega) (by rw [hdiv]; omega) (by rw [hdiv]; omega), hdiv, store_update, hdigits,
        List.map_cons, List.length_cons, hnext]

/-- **`itoa`** writes the canonical numeral with a NUL, and nothing else. -/
theorem itoa_eq (h2 : 2 ≤ r.toNat) (h36 : r.toNat ≤ 36) (hfirst : b.first ≤ pos)
    (hlast : pos + (numeralOf r.toNat value.toNat).length ≤ b.last) :
    itoa b value buf pos r =
      .ok (store buf pos (numeralOf r.toNat value.toNat ++ [0])) := by
  rw [itoa]
  by_cases hzero : value = 0
  · have hnumeral : numeralOf r.toNat value.toNat = [ascii '0'] := by
      rw [hzero, ← digitChar_zero]
      exact numeral_zero
    rw [hnumeral, List.length_singleton, Nat.cast_one] at hlast
    rw [if_pos hzero, hnumeral, Bounds.set_eq ⟨hfirst, by omega⟩, ok_bind,
      Bounds.set_eq ⟨by omega, hlast⟩, ← store_singleton buf]
    exact congrArg Except.ok (update_store buf pos [ascii '0'] 0)
  · have hne : value.toNat ≠ 0 := fun h => hzero (BitVec.eq_of_toNat_eq h)
    have hnumeral : numeralOf r.toNat value.toNat =
        ((Nat.digits r.toNat value.toNat).map digitChar).reverse := by
      rw [numeralOf, numeral_pos hne, List.map_reverse]
    have hchars : ∀ c ∈ (Nat.digits r.toNat value.toNat).map digitChar, c ≠ 0 := by
      intro c hc
      apply numeralOf_ne_zero h2 h36 value.toNat c
      rw [hnumeral, List.mem_reverse]
      exact hc
    rw [hnumeral, List.length_reverse] at hlast
    have hdigits : ((Nat.digits r.toNat value.toNat).map digitChar).length =
        (Nat.digits r.toNat value.toNat).length := List.length_map _
    rw [if_neg hzero, itoaLoop_eq h2 h36 _ hfirst (by omega) (by rw [elementsFrom]; omega),
      ok_bind, ← hdigits]
    simp only
    rw [Bounds.set_eq ⟨by omega, hlast⟩, ok_bind, update_store, strrev_store hchars hfirst hlast,
      hnumeral]

/-- A number is printed. -/
theorem puts_itoa (h2 : 2 ≤ r.toNat) (h36 : r.toNat ≤ 36) (hfirst : b.first ≤ pos)
    (hlast : pos + (numeralOf r.toNat value.toNat).length ≤ b.last) :
    (do
      let buf ← itoa b value buf pos r
      puts b pos buf) = .ok (numeralOf r.toNat value.toNat) := by
  rw [itoa_eq h2 h36 hfirst hlast, ok_bind]
  exact puts_store (numeralOf_ne_zero h2 h36 _) [] hfirst hlast

end Itoa

/-! ## The conversions -/

section Conversions

variable (junk : ℤ → UInt8) (arg : BitVec 32)

/-- Eight hexadecimal digits, or ten decimal ones, are enough for a word. -/
theorem length_hex_le : (numeralOf 16 arg.toNat).length ≤ 8 :=
  length_numeral_le (by decide) (by decide) arg.isLt

theorem length_decimal_le {n : ℕ} (hn : n < 2 ^ 32) : (numeralOf 10 n).length ≤ 10 :=
  length_numeral_le (by decide) (by decide) (lt_trans hn (by decide))

theorem printUnsigned_eq : printUnsigned junk arg = .ok (numeralOf 10 arg.toNat) := by
  have hlen := length_decimal_le arg.isLt
  have hroom : (0 : ℤ) + (numeralOf 10 arg.toNat).length ≤ 35 := by omega
  exact puts_itoa (r := 10) (by decide) (by decide) le_rfl hroom

/-- The text of a signed number. -/
def signedText : List UInt8 :=
  if arg.toInt < 0 then ascii '-' :: numeralOf 10 arg.toInt.natAbs
  else numeralOf 10 arg.toInt.natAbs

/-- **The negation** is that of 32 bits, so that the smallest number has a numeral as well. -/
theorem toNat_neg (h : arg.toInt < 0) : (-arg).toNat = arg.toInt.natAbs := by
  have hlt := arg.isLt
  rw [BitVec.toInt_eq_toNat_cond] at h ⊢
  rw [BitVec.toNat_neg]
  split_ifs at h ⊢
  · omega
  · omega

theorem toNat_of_nonneg (h : ¬arg.toInt < 0) : arg.toNat = arg.toInt.natAbs := by
  have hlt := arg.isLt
  rw [BitVec.toInt_eq_toNat_cond] at h ⊢
  split_ifs at h ⊢
  · omega
  · omega

theorem printSigned_eq : printSigned junk arg = .ok (signedText arg) := by
  rw [printSigned, signedText]
  by_cases hneg : arg.toInt < 0
  · have hlen := length_decimal_le (-arg).isLt
    have hroom : (1 : ℤ) + (numeralOf 10 (-arg).toNat).length ≤ 35 := by omega
    have hminus : decimalBuf.Has 0 := by decide
    have htext : ∀ c ∈ ascii '-' :: numeralOf 10 (-arg).toNat, c ≠ 0 := by
      intro c hc
      rcases List.mem_cons.mp hc with rfl | hc
      · decide
      · exact numeralOf_ne_zero (by decide) (by decide) _ c hc
    have hitoa : itoa decimalBuf (-arg) (Function.update junk 0 (ascii '-')) 1 10 =
        .ok (store (Function.update junk 0 (ascii '-')) 1 (numeralOf 10 (-arg).toNat ++ [0])) :=
      itoa_eq (r := 10) (by decide) (by decide) (by decide) hroom
    -- the digits lie behind the sign
    have hstore := store_update junk 0 (ascii '-') (numeralOf 10 (-arg).toNat ++ [0])
    rw [zero_add] at hstore
    rw [if_pos hneg, if_pos hneg, Bounds.set_eq hminus, ok_bind, hitoa, ok_bind, hstore,
      ← toNat_neg arg hneg]
    apply puts_store htext [] le_rfl
    rw [List.length_cons]
    show (0 : ℤ) + _ ≤ 35
    push_cast
    omega
  · have hlen := length_decimal_le arg.isLt
    have hroom : (0 : ℤ) + (numeralOf 10 arg.toNat).length ≤ 35 := by omega
    rw [if_neg hneg, if_neg hneg, ← toNat_of_nonneg arg hneg]
    exact puts_itoa (r := 10) (by decide) (by decide) le_rfl hroom

example : (printSigned (fun _ => 7) 0x80000000#32).toOption =
    some ("-2147483648".toList.map ascii) := by decide +kernel

/-- The zeros in front of the digits. -/
theorem padLoop_eq {b : Bounds} (n : ℕ) : ∀ {i : ℤ} {buf : ℤ → UInt8}, b.first ≤ i →
    i + n ≤ b.last + 1 → padLoop b n i buf = .ok (store buf i (List.replicate n (ascii '0'))) := by
  induction n with
  | zero =>
    intro i buf _ _
    rw [padLoop, List.replicate_zero, store_nil]
  | succ n ih =>
    intro i buf hfirst hlast
    push_cast at hlast
    rw [padLoop, Bounds.set_eq ⟨hfirst, by omega⟩, ok_bind, ih (by omega) (by omega), store_update,
      List.replicate_succ]

theorem printHex_eq : printHex junk false arg = .ok (numeralOf 16 arg.toNat) := by
  have hlen := length_hex_le arg
  have hroom : (0 : ℤ) + (numeralOf 16 arg.toNat).length ≤ 63 := by omega
  rw [printHex, if_neg Bool.false_ne_true]
  exact puts_itoa (r := 16) (by decide) (by decide) le_rfl hroom

theorem length_paddedHex : (padded digitChar 16 8 arg.toNat).length = 8 :=
  length_padded (by decide) (by decide) arg.isLt

/-- **Eight digits**: the zeros fill the buffer from the number of digits up to the digits. -/
theorem printHex_alternate_eq :
    printHex junk true arg = .ok (padded digitChar 16 8 arg.toNat) := by
  have hlen := length_hex_le arg
  have hdigits : ∀ c ∈ numeralOf 16 arg.toNat, c ≠ 0 :=
    numeralOf_ne_zero (by decide) (by decide) arg.toNat
  have hfirst : hexBuf.first ≤ 8 := by decide
  have hlast : hexBuf.last = 63 := rfl
  have hroom : (8 : ℤ) + (numeralOf 16 arg.toNat).length ≤ hexBuf.last := by omega
  have hstart : ((numeralOf 16 arg.toNat).length : ℤ) +
      (List.replicate (8 - (numeralOf 16 arg.toNat).length) (ascii '0')).length = 8 := by
    rw [List.length_replicate]
    omega
  have htext : ∀ c ∈ padded digitChar 16 8 arg.toNat, c ≠ 0 := by
    intro c hc
    obtain ⟨d, hd, rfl⟩ := mem_padded (by decide) hc
    exact digitChar_ne_zero d (by omega)
  have hitoa : itoa hexBuf arg junk 8 16 = .ok (store junk 8 (numeralOf 16 arg.toNat ++ [0])) :=
    itoa_eq (r := 16) (by decide) (by decide) hfirst hroom
  have hzero : hexBuf.first ≤ (numeralOf 16 arg.toNat).length := Int.natCast_nonneg _
  rw [printHex, if_pos rfl, hitoa, ok_bind, strlen_store hdigits [] hfirst hroom, ok_bind,
    padLoop_eq _ hzero (by omega), ok_bind]
  have hstore := store_append junk (numeralOf 16 arg.toNat).length
    (List.replicate (8 - (numeralOf 16 arg.toNat).length) (ascii '0'))
    (numeralOf 16 arg.toNat ++ [0])
  rw [hstart, ← List.append_assoc] at hstore
  rw [hstore, ← digitChar_zero]
  apply puts_store htext [] hzero
  rw [length_paddedHex]
  omega

end Conversions

/-! ## Format strings -/

/-- What a format string is made of. -/
inductive Directive where
  | plain (c : UInt8) (hc : c ≠ 0 ∧ c ≠ ascii '%')
  | percent
  | hex
  | paddedHex
  | unsigned
  | signed
  | char
  | string

namespace Directive

/-- How it is written. -/
def text : Directive → List UInt8
  | plain c _ => [c]
  | percent => [ascii '%', ascii '%']
  | hex => [ascii '%', ascii 'x']
  | paddedHex => [ascii '%', ascii '#', ascii 'x']
  | unsigned => [ascii '%', ascii 'u']
  | signed => [ascii '%', ascii 'd']
  | char => [ascii '%', ascii 'c']
  | string => [ascii '%', ascii 's']

/-- How many arguments it takes. -/
def arity : Directive → ℕ
  | plain _ _ => 0
  | percent => 0
  | _ => 1

/-- What it stands for, with its argument. -/
def render (m : Memory.Mem) (arg : BitVec 32) : Directive → List UInt8
  | plain c _ => [c]
  | percent => [ascii '%']
  | hex => numeralOf 16 arg.toNat
  | paddedHex => padded digitChar 16 8 arg.toNat
  | unsigned => numeralOf 10 arg.toNat
  | signed => signedText arg
  | char => [UInt8.ofBitVec (arg.setWidth 8)]
  | string => putsAt m arg

end Directive

/-- The format string. -/
def formatOf (ds : List Directive) : List UInt8 := ds.flatMap Directive.text

/-- What the format string stands for, with the arguments from number `esp` on. -/
def rendered (m : Memory.Mem) (args : ℕ → BitVec 32) : ℕ → List Directive → List UInt8
  | _, [] => []
  | esp, d :: ds => d.render m (args esp) ++ rendered m args (esp + d.arity) ds

section Formats

variable (m : Memory.Mem) (junk : ℕ → ℤ → UInt8) (args : ℕ → BitVec 32)

/-- Behind the `%`, and behind the `#` of `%#x`. -/
theorem printfLoop_conversion {alternate : Bool} {c : UInt8} (hc : c ≠ ascii '#') {esp esp' pos : ℕ}
    {out : List UInt8} (h : conversion m junk args alternate c esp = .ok (out, esp'))
    (rest : List UInt8) :
    printfLoop m junk args (some alternate) esp pos (c :: rest) =
      (printfLoop m junk args none esp' (pos + 1) rest).map fun r => (out ++ r.1, r.2) := by
  rw [printfLoop, if_neg hc, h, ok_bind]
  rcases printfLoop m junk args none esp' (pos + 1) rest with e | r <;> rfl

theorem printfLoop_percent (esp pos : ℕ) (rest : List UInt8) :
    printfLoop m junk args none esp pos (ascii '%' :: rest) =
      printfLoop m junk args (some false) esp (pos + 1) rest := by
  rw [printfLoop, if_neg (by decide), if_pos rfl]

/-- One directive is read and printed. -/
theorem printfLoop_directive (d : Directive) (esp pos : ℕ) (rest : List UInt8) :
    printfLoop m junk args none esp pos (d.text ++ rest) =
      (printfLoop m junk args none (esp + d.arity) (pos + d.text.length) rest).map fun r =>
        (d.render m (args esp) ++ r.1, r.2) := by
  cases d with
  | plain c hc =>
    rw [Directive.text, List.singleton_append, printfLoop, if_neg hc.1, if_neg hc.2]
    show _ = (printfLoop m junk args none esp (pos + 1) rest).map fun r => (c :: r.1, r.2)
    rcases printfLoop m junk args none esp (pos + 1) rest with e | r <;> rfl
  | percent =>
    rw [Directive.text, List.cons_append, printfLoop_percent]
    exact printfLoop_conversion m junk args (by decide) rfl rest
  | hex =>
    have h : conversion m junk args false (ascii 'x') esp =
        .ok (numeralOf 16 (args esp).toNat, esp + 1) := by
      rw [conversion, if_neg (by decide), if_pos rfl, printHex_eq, ok_bind]
    rw [Directive.text, List.cons_append, printfLoop_percent]
    exact printfLoop_conversion m junk args (by decide) h rest
  | paddedHex =>
    have h : conversion m junk args true (ascii 'x') esp =
        .ok (padded digitChar 16 8 (args esp).toNat, esp + 1) := by
      rw [conversion, if_neg (by decide), if_pos rfl, printHex_alternate_eq, ok_bind]
    rw [Directive.text, List.cons_append, printfLoop_percent, List.cons_append, printfLoop,
      if_pos rfl]
    exact printfLoop_conversion m junk args (by decide) h rest
  | unsigned =>
    have h : conversion m junk args false (ascii 'u') esp =
        .ok (numeralOf 10 (args esp).toNat, esp + 1) := by
      rw [conversion, if_neg (by decide), if_neg (by decide), if_pos rfl, printUnsigned_eq, ok_bind]
    rw [Directive.text, List.cons_append, printfLoop_percent]
    exact printfLoop_conversion m junk args (by decide) h rest
  | signed =>
    have h : conversion m junk args false (ascii 'd') esp =
        .ok (signedText (args esp), esp + 1) := by
      rw [conversion, if_neg (by decide), if_neg (by decide), if_neg (by decide), if_pos rfl,
        printSigned_eq, ok_bind]
    rw [Directive.text, List.cons_append, printfLoop_percent]
    exact printfLoop_conversion m junk args (by decide) h rest
  | char =>
    rw [Directive.text, List.cons_append, printfLoop_percent]
    exact printfLoop_conversion m junk args (by decide) rfl rest
  | string =>
    rw [Directive.text, List.cons_append, printfLoop_percent]
    exact printfLoop_conversion m junk args (by decide) rfl rest

/-- **Formats**: the loop prints what the format stands for, and stops at its NUL. -/
theorem printfLoop_eq (ds : List Directive) (rest : List UInt8) : ∀ esp pos : ℕ,
    printfLoop m junk args none esp pos (formatOf ds ++ 0 :: rest) =
      .ok (rendered m args esp ds, pos + (formatOf ds).length) := by
  induction ds with
  | nil =>
    intro esp pos
    exact if_pos rfl
  | cons d ds ih =>
    intro esp pos
    have hformat : formatOf (d :: ds) = d.text ++ formatOf ds := List.flatMap_cons
    rw [hformat, List.append_assoc, printfLoop_directive, ih, rendered, List.length_append,
      ← Nat.add_assoc]
    rfl

theorem printf_eq (ds : List Directive) (rest : List UInt8) :
    printf m junk args (formatOf ds ++ 0 :: rest) =
      .ok (rendered m args 0 ds, (formatOf ds).length) := by
  rw [printf, printfLoop_eq, Nat.zero_add]

end Formats

/-- A string in memory is printed as it is. -/
theorem putsAt_eq {m : Memory.Mem} {a : BitVec 32} {s : List UInt8} (h : Memory.HasString m a s)
    (hs : s.length < 2 ^ 32) : putsAt m a = s := by
  rw [putsAt, Memory.strlen_eq h hs]
  apply List.ext_getElem
  · rw [List.length_map, List.length_range]
  · intro i hi hi'
    rw [List.getElem_map, List.getElem_range]
    have hdrop := h.drop s hi'.le
    rw [List.drop_eq_getElem_cons hi'] at hdrop
    exact hdrop.2.1

end AuroraOS.Printf
