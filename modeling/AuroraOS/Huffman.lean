/-
# Huffman trees of the PNG decoder

The bit reader and the Huffman trees of `gui/upng.c`: `huffman_tree_create_lengths` builds the
table of a tree from the code lengths, `huffman_decode_symbol` walks it bit by bit.

A tree is a table with two entries for every inner node.  An entry below `numcodes` is a
symbol, any other entry is an inner node with `numcodes` added to it, and 32767 stands for an
entry that is not filled in yet.
-/
import AuroraOS.Machine
import AuroraOS.PrefixCode

namespace AuroraOS

open BitStream PrefixCode Machine

/-- `upng_error`, without `UPNG_EOK`. -/
inductive UpngError
  | nomem
  | notfound
  | notpng
  | malformed
  | unsupported
  | uninterlaced
  | unformat
  | param
  deriving DecidableEq, Repr

/-- The accesses of the decoder to its arrays. -/
inductive PngAccess
  | source
  | bitstream
  | tree2d
  | blcount
  | bitlen
  | previous
  | table
  | outRead
  | outWrite
  | compressed
  | inflated
  deriving DecidableEq, Repr

/-- What ends a call early: an error of the decoder, an access outside of an array, or, in the
model alone, a loop that uses up its fuel. -/
inductive Stop
  | error (e : UpngError)
  | outOfBounds (a : PngAccess)
  | outOfFuel
  deriving DecidableEq, Repr

/-- `SET_ERROR(upng, UPNG_EMALFORMED); return`. -/
abbrev malformed {α : Type} : Except Stop α := .error (.error .malformed)

/-- `a[i]`, where `a` holds the elements `l`. -/
def readAt {α : Type} (a : PngAccess) (l : List α) (i : ℕ) : Except Stop α :=
  match l[i]? with
  | some v => .ok v
  | none => .error (.outOfBounds a)

/-- `a[i] = v`, where `a` holds the elements `l`. -/
def writeAt {α : Type} (a : PngAccess) (l : List α) (i : ℕ) (v : α) : Except Stop (List α) :=
  if i < l.length then .ok (l.set i v) else .error (.outOfBounds a)

/-- `a - b` on `unsigned`. -/
def sub32 (a b : ℕ) : ℕ := (a + 2 ^ 32 - b) % 2 ^ 32

theorem sub32_of_le {a b : ℕ} (h : b ≤ a) (ha : a < 2 ^ 32) : sub32 a b = a - b := by
  rw [sub32]
  omega

theorem readAt_eq {α : Type} {a : PngAccess} {l : List α} {i : ℕ} {v : α} (h : l[i]? = some v) :
    readAt a l i = .ok v := by
  rw [readAt, h]

theorem readAt_of_lt {α : Type} {a : PngAccess} {l : List α} {i : ℕ} (h : i < l.length) :
    readAt a l i = .ok l[i] :=
  readAt_eq (List.getElem?_eq_getElem h)

theorem writeAt_eq {α : Type} {a : PngAccess} {l : List α} {i : ℕ} (h : i < l.length) (v : α) :
    writeAt a l i v = .ok (l.set i v) := if_pos h

/-! ## Bits -/

/-- `read_bit`: the bit and the bit pointer behind it. -/
def readBit (bitstream : List UInt8) (bp : ℕ) : Except Stop (ℕ × ℕ) := do
  let b ← readAt .bitstream bitstream (bp >>> 3)
  .ok (b.toNat >>> (bp &&& 0x7) &&& 1, bp + 1)

/-- The loop of `read_bits`, with `n` bits left to read. -/
def readBitsLoop (bitstream : List UInt8) : ℕ → ℕ → ℕ → ℕ → Except Stop (ℕ × ℕ)
  | 0, _, result, bp => .ok (result, bp)
  | n + 1, i, result, bp => do
    let (bit, bp) ← readBit bitstream bp
    readBitsLoop bitstream n (i + 1) (result ||| bit <<< i) bp

/-- `read_bits`. -/
def readBits (bitstream : List UInt8) (bp nbits : ℕ) : Except Stop (ℕ × ℕ) :=
  readBitsLoop bitstream nbits 0 0 bp

variable {bitstream : List UInt8} {bp : ℕ}

theorem and_seven (n : ℕ) : n &&& 0x7 = n % 8 := Nat.and_two_pow_sub_one_eq_mod n 3

theorem shiftRight_three (n : ℕ) : n >>> 3 = n / 8 := Nat.shiftRight_eq_div_pow n 3

theorem readBit_eq {b : Bool} (h : bitAt bitstream bp = some b) :
    readBit bitstream bp = .ok (b.toNat, bp + 1) := by
  rw [bitAt, Option.map_eq_some_iff] at h
  obtain ⟨c, hc, hbit⟩ := h
  rw [readBit, shiftRight_three, readAt_eq hc, ok_bind, and_seven, ← hbit, Nat.testBit,
    Nat.and_comm]
  rcases Nat.mod_two_eq_zero_or_one (c.toNat >>> (bp % 8)) with h | h <;>
    simp [Nat.one_and_eq_mod_two, h]

theorem readBitsLoop_eq {w : List Bool} : ∀ {bp i result : ℕ}, result < 2 ^ i →
    Holds bitstream bp w → readBitsLoop bitstream w.length i result bp =
      .ok (result + ofLsb w * 2 ^ i, bp + w.length) := by
  induction w with
  | nil => intro bp i result _ _; rw [ofLsb, Nat.zero_mul]; rfl
  | cons b w ih =>
    intro bp i result hlt hold
    have hor : result ||| b.toNat <<< i = result + b.toNat * 2 ^ i := by
      rw [Nat.or_comm, ← Nat.shiftLeft_add_eq_or_of_lt hlt, Nat.shiftLeft_eq, Nat.add_comm]
    have hlt' : result + b.toNat * 2 ^ i < 2 ^ (i + 1) := by
      have hb : b.toNat * 2 ^ i ≤ 1 * 2 ^ i := Nat.mul_le_mul_right _ b.toNat_le
      rw [pow_succ]
      omega
    rw [List.length_cons, readBitsLoop, readBit_eq hold.1, ok_bind]
    show readBitsLoop bitstream w.length (i + 1) (result ||| b.toNat <<< i) (bp + 1) = _
    rw [hor, ih hlt' hold.2, ofLsb]
    congr 2
    · ring
    · omega

/-- **The bits of the stream, read as a number.** -/
theorem readBits_eq {w : List Bool} (h : Holds bitstream bp w) :
    readBits bitstream bp w.length = .ok (ofLsb w, bp + w.length) := by
  rw [readBits, readBitsLoop_eq (Nat.two_pow_pos 0) h, Nat.zero_add, pow_zero, Nat.mul_one]

theorem readBits_lsb {n v : ℕ} (hv : v < 2 ^ n) (h : Holds bitstream bp (lsb n v)) :
    readBits bitstream bp n = .ok (v, bp + n) := by
  have hread := readBits_eq h
  rwa [length_lsb, ofLsb_lsb, Nat.mod_eq_of_lt hv] at hread

/-! ## Building a tree -/

/-- `huffman_tree`. -/
structure HuffmanTree where
  tree2d : List ℕ
  numcodes : ℕ
  maxbitlen : ℕ
  deriving DecidableEq

/-- The entries of `blcount`, `MAX_BIT_LENGTH`. -/
abbrev maxBitLength : ℕ := 15
/-- An entry of `tree2d` that is not filled in yet. -/
abbrev unfilled : ℕ := 32767

/-- Step 1: how often each code length occurs. -/
def countLengths (bitlen : List ℕ) : Except Stop (List ℕ) :=
  bitlen.foldlM
    (fun blcount l => do
      let c ← readAt .blcount blcount l
      writeAt .blcount blcount l (c + 1))
    (List.replicate maxBitLength 0)

/-- Step 2: the first code of each length. -/
def firstCode (blcount : List ℕ) : ℕ → ℕ
  | 0 => 0
  | bits + 1 => (firstCode blcount bits + blcount.getD bits 0) <<< 1

/-- The array `nextcode` behind step 2. -/
def nextcode (blcount : List ℕ) (maxbitlen bits : ℕ) : ℕ :=
  if bits ≤ maxbitlen then firstCode blcount bits else 0

/-- Step 3: the codes, 0 where the array `tree1d` is not set. -/
def tree1d (nextcode : ℕ → ℕ) : List ℕ → List ℕ
  | [] => []
  | l :: bitlen =>
    if l ≠ 0 then
      nextcode l :: tree1d (Function.update nextcode l (nextcode l + 1)) bitlen
    else 0 :: tree1d nextcode bitlen

/-- The state of the last loop: the table, the last node in use, and the position. -/
structure Filling where
  tree2d : List ℕ
  nodefilled : ℕ
  treepos : ℕ

namespace Filling

variable (numcodes : ℕ)

/-- The body of the inner loop, for one bit of the code `n`. -/
def putBit (n : ℕ) (last : Bool) (bit : ℕ) (s : Filling) : Except Stop Filling := do
  if s.treepos > numcodes - 2 then malformed
  else
    let entry ← readAt .tree2d s.tree2d (2 * s.treepos + bit)
    if entry = unfilled then
      if last then do
        let tree2d ← writeAt .tree2d s.tree2d (2 * s.treepos + bit) n
        .ok { s with tree2d := tree2d, treepos := 0 }
      else do
        let tree2d ← writeAt .tree2d s.tree2d (2 * s.treepos + bit) (s.nodefilled + 1 + numcodes)
        .ok ⟨tree2d, s.nodefilled + 1, s.nodefilled + 1⟩
    else .ok { s with treepos := sub32 entry numcodes }

/-- The inner loop, over the bits of the code `n`. -/
def putCode (n : ℕ) : List Bool → Filling → Except Stop Filling
  | [], s => .ok s
  | b :: bs, s => do
    let s ← s.putBit numcodes n bs.isEmpty b.toNat
    putCode n bs s

/-- The outer loop, from the code `n` on.  The bits of a code come highest bit first. -/
def putCodes : ℕ → List (ℕ × ℕ) → Filling → Except Stop Filling
  | _, [], s => .ok s
  | n, (bitlen, code) :: codes, s => do
    let s ← s.putCode numcodes n (msb bitlen code)
    putCodes (n + 1) codes s

end Filling

/-- `huffman_tree_create_lengths`, for a `bitlen` with `numcodes` entries. -/
def createLengths (numcodes maxbitlen : ℕ) (bitlen : List ℕ) : Except Stop HuffmanTree := do
  let blcount ← countLengths bitlen
  let s ← Filling.putCodes numcodes 0
    (bitlen.zip (tree1d (nextcode blcount maxbitlen) bitlen))
    ⟨List.replicate (2 * numcodes) unfilled, 0, 0⟩
  .ok ⟨s.tree2d.map fun v => if v = unfilled then 0 else v, numcodes, maxbitlen⟩

/-! ## Decoding a symbol -/

/-- The loop of `huffman_decode_symbol`: the symbol and the bit pointer behind its code. -/
def decodeLoop (tree : HuffmanTree) (bitstream : List UInt8) (inlength : ℕ) :
    ℕ → ℕ → ℕ → Except Stop (ℕ × ℕ)
  | 0, bp, _ => if bp &&& 0x7 = 0 ∧ bp >>> 3 > inlength then malformed else .error .outOfFuel
  | fuel + 1, bp, treepos => do
    if bp &&& 0x7 = 0 ∧ bp >>> 3 > inlength then malformed
    else
      let (bit, bp) ← readBit bitstream bp
      let ct ← readAt .tree2d tree.tree2d (treepos <<< 1 ||| bit)
      if ct < tree.numcodes then .ok (ct, bp)
      else if ct - tree.numcodes ≥ tree.numcodes then malformed
      else decodeLoop tree bitstream inlength fuel bp (ct - tree.numcodes)

/-- The loop stops at the first byte behind the input at the latest. -/
def decodeFuel (inlength : ℕ) : ℕ := 8 * (inlength + 2)

/-- `huffman_decode_symbol`. -/
def decodeSymbol (tree : HuffmanTree) (bitstream : List UInt8) (inlength bp : ℕ) :
    Except Stop (ℕ × ℕ) :=
  decodeLoop tree bitstream inlength (decodeFuel inlength) bp 0

end AuroraOS
