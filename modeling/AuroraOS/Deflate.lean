/-
# The compressed format

What a stream of compressed data says, and the bits it consists of: tokens with their length
and distance codes, blocks of the three types, and the code lengths in front of a block that
brings its own codes.  Nothing here depends on how the stream is read; an encoder may choose
its tokens, its codes and its blocks as it likes.
-/
import AuroraOS.HuffmanCodes
import AuroraOS.Inflate
import AuroraOS.Lz77

namespace AuroraOS

open BitStream Lz77

/-! ## Symbols -/

/-- The symbols that have a word, and the words. -/
structure SymbolCode where
  symbols : Finset ℕ
  word : ℕ → List Bool

/-- The canonical code of some code lengths. -/
def SymbolCode.ofLengths (bitlen : List ℕ) : SymbolCode := ⟨used bitlen, codeOf bitlen⟩

/-- The code of the literals and lengths in a block with fixed codes. -/
def fixedCode : SymbolCode where
  symbols := Finset.range numDeflateCodeSymbols
  word n :=
    if n < 144 then msb 8 (0x30 + n)
    else if n < 256 then msb 9 (0x190 + (n - 144))
    else if n < 280 then msb 7 (n - 256)
    else msb 8 (0xC0 + (n - 280))

/-- The code of the distances in a block with fixed codes. -/
def fixedCodeD : SymbolCode := ⟨Finset.range numDistanceSymbols, msb 5⟩

/-- A tree that decodes a code. -/
def HuffmanTree.Reads (tree : HuffmanTree) (c : SymbolCode) : Prop :=
  tree.Decodes c.symbols c.word

/-! ## Tokens -/

/-- A number as a symbol of a table and extra bits: a base, and an offset that fits them. -/
structure Extended (base extra : List ℕ) where
  index : ℕ
  offset : ℕ
  index_lt_base : index < base.length
  index_lt_extra : index < extra.length
  offset_lt : offset < 2 ^ extra[index]

namespace Extended

variable {base extra : List ℕ} (x : Extended base extra)

/-- The number. -/
def value : ℕ := getElem base x.index x.index_lt_base + x.offset

/-- The extra bits, lowest bit first. -/
def bits : List Bool := lsb (getElem extra x.index x.index_lt_extra) x.offset

end Extended

/-- A literal, or a copy with its length and its distance. -/
inductive Item
  | literal (c : UInt8)
  | copy (length : Extended lengthBase lengthExtra) (distance : Extended distanceBase distanceExtra)

namespace Item

/-- What an item says. -/
def token : Item → Token UInt8
  | literal c => .literal c
  | copy length distance => .copy length.value distance.value

/-- The bits of an item. -/
def bits (c cD : SymbolCode) : Item → List Bool
  | literal a => c.word a.toNat
  | copy length distance =>
    c.word (257 + length.index) ++ length.bits ++ cD.word distance.index ++ distance.bits

/-- The codes have words for the item. -/
def Coded (c cD : SymbolCode) : Item → Prop
  | literal a => a.toNat ∈ c.symbols
  | copy length distance => 257 + length.index ∈ c.symbols ∧ distance.index ∈ cD.symbols

end Item

/-- The bits of a block behind its codes: its items, and the symbol that ends it. -/
def itemBits (c cD : SymbolCode) (items : List Item) : List Bool :=
  items.flatMap (Item.bits c cD) ++ c.word 256

/-! ## Code lengths -/

/-- An item of the compressed code lengths: a length, or a repetition with its extra bits. -/
inductive LengthItem
  | length (l : ℕ)
  | previous (r : ℕ)
  | zeros (r : ℕ)
  | manyZeros (r : ℕ)

namespace LengthItem

/-- The lengths behind an item; a repetition repeats the last one. -/
def apply : LengthItem → List ℕ → List ℕ
  | length l, lens => lens ++ [l]
  | previous r, lens => lens ++ List.replicate (3 + r) (lens.getLastD 0)
  | zeros r, lens => lens ++ List.replicate (3 + r) 0
  | manyZeros r, lens => lens ++ List.replicate (11 + r) 0

/-- The symbol of an item, and its extra bits. -/
def bits (c : SymbolCode) : LengthItem → List Bool
  | length l => c.word l
  | previous r => c.word 16 ++ lsb 2 r
  | zeros r => c.word 17 ++ lsb 3 r
  | manyZeros r => c.word 18 ++ lsb 7 r

/-- The code has a word for the item, its extra bits fit, and there is something to repeat. -/
def Coded (c : SymbolCode) (lens : List ℕ) : LengthItem → Prop
  | length l => l ≤ 15 ∧ l ∈ c.symbols
  | previous r => lens ≠ [] ∧ r < 2 ^ 2 ∧ 16 ∈ c.symbols
  | zeros r => r < 2 ^ 3 ∧ 17 ∈ c.symbols
  | manyZeros r => r < 2 ^ 7 ∧ 18 ∈ c.symbols

end LengthItem

/-- The lengths that the items say, behind `lens`. -/
def expandLengths (items : List LengthItem) (lens : List ℕ) : List ℕ :=
  items.foldl (fun lens x => x.apply lens) lens

/-- Every item can be coded where it stands. -/
def LengthsCoded (c : SymbolCode) : List LengthItem → List ℕ → Prop
  | [], _ => True
  | x :: items, lens => x.Coded c lens ∧ LengthsCoded c items (x.apply lens)

/-- An array of `n` entries that begins with some lengths. -/
def paddedLengths (n : ℕ) (lens : List ℕ) : List ℕ := lens ++ List.replicate (n - lens.length) 0

/-- What stands in front of a block with its own codes: the numbers of codes, the lengths of the
code length codes, and the items that say all other lengths. -/
structure BlockHeader where
  hlit : ℕ
  hdist : ℕ
  hclen : ℕ
  codelengthcode : List ℕ
  items : List LengthItem

namespace BlockHeader

variable (h : BlockHeader)

/-- The code of the code lengths. -/
def code : SymbolCode := .ofLengths h.codelengthcode

/-- All code lengths of the block. -/
def lens : List ℕ := expandLengths h.items []

/-- The code lengths of the literals and lengths. -/
def bitlen : List ℕ := paddedLengths numDeflateCodeSymbols (h.lens.take (h.hlit + 257))

/-- The code lengths of the distances. -/
def bitlenD : List ℕ := paddedLengths numDistanceSymbols (h.lens.drop (h.hlit + 257))

/-- The bits of the header. -/
def bits : List Bool :=
  lsb 5 h.hlit ++ lsb 5 h.hdist ++ lsb 4 h.hclen ++
    (clcl.take (h.hclen + 4)).flatMap (fun c => lsb 3 (h.codelengthcode.getD c 0)) ++
    h.items.flatMap (LengthItem.bits h.code)

/-- Code lengths that make a tree: not oversubscribed, below 15 bits, and with inner nodes that
fit the table. -/
structure Buildable (numcodes maxbitlen : ℕ) (bitlen : List ℕ) : Prop where
  short : ∀ l ∈ bitlen, l ≤ maxbitlen
  below : ∀ l ∈ bitlen, l < maxBitLength
  notOversubscribed : NotOversubscribed maxbitlen bitlen
  room : (PrefixCode.inner (used bitlen) (codeOf bitlen)).card < numcodes

/-- A header that fits the format: the numbers fit their bits, the lengths that are not in the
stream are 0, the items say as many lengths as there are codes, and there is a word for the
end of the block. -/
structure WellFormed : Prop where
  hlit_lt : h.hlit < 2 ^ 5
  hdist_lt : h.hdist < 2 ^ 5
  hclen_lt : h.hclen < 2 ^ 4
  size : h.codelengthcode.length = numCodeLengthCodes
  absent : ∀ c ∈ clcl.drop (h.hclen + 4), h.codelengthcode.getD c 0 = 0
  coded : LengthsCoded h.code h.items []
  length : h.lens.length = h.hlit + 257 + (h.hdist + 1)
  endCode : h.bitlen.getD 256 0 ≠ 0
  lengths : Buildable numCodeLengthCodes 7 h.codelengthcode
  literals : Buildable numDeflateCodeSymbols 15 h.bitlen
  distances : Buildable numDistanceSymbols 15 h.bitlenD

end BlockHeader

/-! ## Blocks -/

/-- A block of the stream. -/
inductive Block
  | stored (padding : List Bool) (data : List UInt8)
  | fixed (items : List Item)
  | dynamic (header : BlockHeader) (items : List Item)

namespace Block

/-- What a block says. -/
def tokens : Block → List (Token UInt8)
  | stored _ data => data.map .literal
  | fixed items => items.map Item.token
  | dynamic _ items => items.map Item.token

/-- The type of a block, `BTYPE`. -/
def btype : Block → ℕ
  | stored _ _ => 0
  | fixed _ => 1
  | dynamic _ _ => 2

/-- A 16 bit number as two bytes. -/
def word16 (n : ℕ) : List UInt8 := [UInt8.ofNat n, UInt8.ofNat (n / 256)]

/-- The bits of a block behind its type. -/
def body : Block → List Bool
  | stored padding data =>
    padding ++ BitStream.bits (word16 data.length ++ word16 (65535 - data.length) ++ data)
  | fixed items => itemBits fixedCode fixedCodeD items
  | dynamic h items => h.bits ++ itemBits (.ofLengths h.bitlen) (.ofLengths h.bitlenD) items

/-- The bits of a block. -/
def bits (final : Bool) (b : Block) : List Bool := final :: (lsb 2 b.btype ++ b.body)

/-- A block that the format allows at a position of the stream. -/
def WellFormed (bp : ℕ) : Block → Prop
  | stored padding data =>
    (bp + 3 + padding.length) % 8 = 0 ∧ padding.length < 8 ∧ data.length < 2 ^ 16
  | fixed items => ∀ x ∈ items, x.Coded fixedCode fixedCodeD
  | dynamic h items => h.WellFormed ∧
      ∀ x ∈ items, x.Coded (.ofLengths h.bitlen) (.ofLengths h.bitlenD)

end Block

/-- The bits of some blocks, of which the last one ends the stream. -/
def streamBits : List Block → List Bool
  | [] => []
  | [b] => b.bits true
  | b :: b' :: blocks => b.bits false ++ streamBits (b' :: blocks)

/-- All blocks are allowed where they stand. -/
def StreamWellFormed (bp : ℕ) : List Block → Prop
  | [] => True
  | b :: blocks => b.WellFormed bp ∧ StreamWellFormed (bp + (b.bits false).length) blocks

/-- The two bytes in front of the blocks, `CMF` and `FLG`: method 8 with a window of 32768 bytes
at most, no dictionary, and a check value. -/
structure ZlibHeader (cmf flg : UInt8) : Prop where
  check : (cmf.toNat * 256 + flg.toNat) % 31 = 0
  method : cmf.toNat % 16 = 8
  window : cmf.toNat / 16 ≤ 7
  noDictionary : flg.toNat / 32 % 2 = 0

/-- What the blocks say. -/
def streamTokens (blocks : List Block) : List (Token UInt8) := blocks.flatMap Block.tokens

/-- Bytes that an encoder may have made of some data: the two bytes in front, the bits of blocks
that say the data, and anything, such as a check sum, behind. -/
def Compresses (compressed data : List UInt8) : Prop :=
  ∃ (cmf flg : UInt8) (blocks : List Block) (checksum : List UInt8), ZlibHeader cmf flg ∧
    blocks ≠ [] ∧ StreamWellFormed 0 blocks ∧ Valid 0 (streamTokens blocks) ∧
    expand (streamTokens blocks) [] = data ∧
    compressed = cmf :: flg :: (pack (streamBits blocks) ++ checksum)

end AuroraOS
