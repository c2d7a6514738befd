/-
# Inflating

The decompressor of `gui/upng.c`: blocks that are stored, blocks with the fixed Huffman trees,
blocks that bring their own trees, and the stream around them.

A bit pointer counts the bits from the start of the compressed data.  The output grows at its
end only, so it is modelled by the list of the bytes written; its length is the position `pos`.
-/
import AuroraOS.Huffman

namespace AuroraOS

/-! ## Tables -/

/-- `LENGTH_BASE`. -/
def lengthBase : List ℕ :=
  [3, 4, 5, 6, 7, 8, 9, 10, 11, 13, 15, 17, 19, 23, 27, 31, 35, 43, 51, 59, 67, 83, 99, 115, 131,
   163, 195, 227, 258]

/-- `LENGTH_EXTRA`. -/
def lengthExtra : List ℕ :=
  [0, 0, 0, 0, 0, 0, 0, 0, 1, 1, 1, 1, 2, 2, 2, 2, 3, 3, 3, 3, 4, 4, 4, 4, 5, 5, 5, 5, 0]

/-- `DISTANCE_BASE`. -/
def distanceBase : List ℕ :=
  [1, 2, 3, 4, 5, 7, 9, 13, 17, 25, 33, 49, 65, 97, 129, 193, 257, 385, 513, 769, 1025, 1537,
   2049, 3073, 4097, 6145, 8193, 12289, 16385, 24577]

/-- `DISTANCE_EXTRA`. -/
def distanceExtra : List ℕ :=
  [0, 0, 0, 0, 1, 1, 2, 2, 3, 3, 4, 4, 5, 5, 6, 6, 7, 7, 8, 8, 9, 9, 10, 10, 11, 11, 12, 12, 13,
   13]

/-- `CLCL`: the order in which the lengths of the code length codes are stored. -/
def clcl : List ℕ := [16, 17, 18, 0, 8, 7, 9, 6, 10, 5, 11, 4, 12, 3, 13, 2, 14, 1, 15]

/-- `NUM_DEFLATE_CODE_SYMBOLS`. -/
abbrev numDeflateCodeSymbols : ℕ := 288
/-- `NUM_DISTANCE_SYMBOLS`. -/
abbrev numDistanceSymbols : ℕ := 32
/-- `NUM_CODE_LENGTH_CODES`. -/
abbrev numCodeLengthCodes : ℕ := 19

/-- `FIXED_DEFLATE_CODE_TREE`. -/
def fixedDeflateCodeTree : List ℕ :=
  [289, 370, 290, 307, 546, 291, 561, 292, 293, 300, 294, 297, 295, 296, 0, 1, 2, 3, 298, 299, 4,
   5, 6, 7, 301, 304, 302, 303, 8, 9, 10, 11, 305, 306, 12, 13, 14, 15, 308, 339, 309, 324, 310,
   317, 311, 314, 312, 313, 16, 17, 18, 19, 315, 316, 20, 21, 22, 23, 318, 321, 319, 320, 24,
   25, 26, 27, 322, 323, 28, 29, 30, 31, 325, 332, 326, 329, 327, 328, 32, 33, 34, 35, 330, 331,
   36, 37, 38, 39, 333, 336, 334, 335, 40, 41, 42, 43, 337, 338, 44, 45, 46, 47, 340, 355, 341,
   348, 342, 345, 343, 344, 48, 49, 50, 51, 346, 347, 52, 53, 54, 55, 349, 352, 350, 351, 56,
   57, 58, 59, 353, 354, 60, 61, 62, 63, 356, 363, 357, 360, 358, 359, 64, 65, 66, 67, 361, 362,
   68, 69, 70, 71, 364, 367, 365, 366, 72, 73, 74, 75, 368, 369, 76, 77, 78, 79, 371, 434, 372,
   403, 373, 388, 374, 381, 375, 378, 376, 377, 80, 81, 82, 83, 379, 380, 84, 85, 86, 87, 382,
   385, 383, 384, 88, 89, 90, 91, 386, 387, 92, 93, 94, 95, 389, 396, 390, 393, 391, 392, 96,
   97, 98, 99, 394, 395, 100, 101, 102, 103, 397, 400, 398, 399, 104, 105, 106, 107, 401, 402,
   108, 109, 110, 111, 404, 419, 405, 412, 406, 409, 407, 408, 112, 113, 114, 115, 410, 411,
   116, 117, 118, 119, 413, 416, 414, 415, 120, 121, 122, 123, 417, 418, 124, 125, 126, 127,
   420, 427, 421, 424, 422, 423, 128, 129, 130, 131, 425, 426, 132, 133, 134, 135, 428, 431,
   429, 430, 136, 137, 138, 139, 432, 433, 140, 141, 142, 143, 435, 483, 436, 452, 568, 437,
   438, 445, 439, 442, 440, 441, 144, 145, 146, 147, 443, 444, 148, 149, 150, 151, 446, 449,
   447, 448, 152, 153, 154, 155, 450, 451, 156, 157, 158, 159, 453, 468, 454, 461, 455, 458,
   456, 457, 160, 161, 162, 163, 459, 460, 164, 165, 166, 167, 462, 465, 463, 464, 168, 169,
   170, 171, 466, 467, 172, 173, 174, 175, 469, 476, 470, 473, 471, 472, 176, 177, 178, 179,
   474, 475, 180, 181, 182, 183, 477, 480, 478, 479, 184, 185, 186, 187, 481, 482, 188, 189,
   190, 191, 484, 515, 485, 500, 486, 493, 487, 490, 488, 489, 192, 193, 194, 195, 491, 492,
   196, 197, 198, 199, 494, 497, 495, 496, 200, 201, 202, 203, 498, 499, 204, 205, 206, 207,
   501, 508, 502, 505, 503, 504, 208, 209, 210, 211, 506, 507, 212, 213, 214, 215, 509, 512,
   510, 511, 216, 217, 218, 219, 513, 514, 220, 221, 222, 223, 516, 531, 517, 524, 518, 521,
   519, 520, 224, 225, 226, 227, 522, 523, 228, 229, 230, 231, 525, 528, 526, 527, 232, 233,
   234, 235, 529, 530, 236, 237, 238, 239, 532, 539, 533, 536, 534, 535, 240, 241, 242, 243,
   537, 538, 244, 245, 246, 247, 540, 543, 541, 542, 248, 249, 250, 251, 544, 545, 252, 253,
   254, 255, 547, 554, 548, 551, 549, 550, 256, 257, 258, 259, 552, 553, 260, 261, 262, 263,
   555, 558, 556, 557, 264, 265, 266, 267, 559, 560, 268, 269, 270, 271, 562, 565, 563, 564,
   272, 273, 274, 275, 566, 567, 276, 277, 278, 279, 569, 572, 570, 571, 280, 281, 282, 283,
   573, 574, 284, 285, 286, 287, 0, 0]

/-- `FIXED_DISTANCE_TREE`. -/
def fixedDistanceTree : List ℕ :=
  [33, 48, 34, 41, 35, 38, 36, 37, 0, 1, 2, 3, 39, 40, 4, 5, 6, 7, 42, 45, 43, 44, 8, 9, 10, 11,
   46, 47, 12, 13, 14, 15, 49, 56, 50, 53, 51, 52, 16, 17, 18, 19, 54, 55, 20, 21, 22, 23, 57,
   60, 58, 59, 24, 25, 26, 27, 61, 62, 28, 29, 30, 31, 0, 0]

/-- The trees of a block with fixed codes. -/
def fixedCodetree : HuffmanTree := ⟨fixedDeflateCodeTree, numDeflateCodeSymbols, 15⟩

def fixedCodetreeD : HuffmanTree := ⟨fixedDistanceTree, numDistanceSymbols, 15⟩

/-! ## The trees of a block -/

/-- The state of the loop over the code lengths. -/
structure LengthsState where
  i : ℕ
  bp : ℕ
  bitlen : List ℕ
  bitlenD : List ℕ

section Dynamic

variable (bitstream : List UInt8) (inlength : ℕ)

/-- The next code length: the lengths of the literals and lengths come first. -/
def putLength (hlit value : ℕ) (s : LengthsState) : Except Stop LengthsState :=
  if s.i < hlit then do
    let bitlen ← writeAt .bitlen s.bitlen s.i value
    .ok { s with i := s.i + 1, bitlen := bitlen }
  else do
    let bitlenD ← writeAt .bitlen s.bitlenD (s.i - hlit) value
    .ok { s with i := s.i + 1, bitlenD := bitlenD }

/-- The loop that repeats a code length. -/
def repeatLength (hlit hdist value : ℕ) : ℕ → LengthsState → Except Stop LengthsState
  | 0, s => .ok s
  | n + 1, s =>
    if s.i ≥ hlit + hdist then malformed
    else do
      let s ← putLength hlit value s
      repeatLength hlit hdist value n s

/-- The previous code length. -/
def previousLength (hlit : ℕ) (s : LengthsState) : Except Stop ℕ :=
  if sub32 s.i 1 < hlit then readAt .previous s.bitlen (sub32 s.i 1)
  else readAt .previous s.bitlenD (sub32 (sub32 s.i hlit) 1)

/-- The repeat length of the codes 16, 17 and 18, from its extra bits. -/
def readReplength (bp base nbits : ℕ) : Except Stop (ℕ × ℕ) :=
  if bp >>> 3 ≥ inlength then malformed
  else do
    let (extra, bp) ← readBits bitstream bp nbits
    .ok (base + extra, bp)

/-- The loop over the code lengths. -/
def lengthsLoop (tree : HuffmanTree) (hlit hdist : ℕ) :
    ℕ → LengthsState → Except Stop LengthsState
  | 0, s => if s.i < hlit + hdist then .error .outOfFuel else .ok s
  | fuel + 1, s =>
    if s.i < hlit + hdist then do
      let (code, bp) ← decodeSymbol tree bitstream inlength s.bp
      if code ≤ 15 then do
        let s ← putLength hlit code { s with bp := bp }
        lengthsLoop tree hlit hdist fuel s
      else if code = 16 then do
        let (replength, bp) ← readReplength bitstream inlength bp 3 2
        let value ← previousLength hlit s
        let s ← repeatLength hlit hdist value replength { s with bp := bp }
        lengthsLoop tree hlit hdist fuel s
      else if code = 17 then do
        let (replength, bp) ← readReplength bitstream inlength bp 3 3
        let s ← repeatLength hlit hdist 0 replength { s with bp := bp }
        lengthsLoop tree hlit hdist fuel s
      else if code = 18 then do
        let (replength, bp) ← readReplength bitstream inlength bp 11 7
        let s ← repeatLength hlit hdist 0 replength { s with bp := bp }
        lengthsLoop tree hlit hdist fuel s
      else malformed
    else .ok s

/-- The loop that reads the lengths of the code length codes, over a rest of `clcl`; the first
`hclen` lengths are in the stream. -/
def codeLengthCodes (hclen : ℕ) : List ℕ → ℕ → List ℕ → ℕ → Except Stop (List ℕ × ℕ)
  | [], _, codelengthcode, bp => .ok (codelengthcode, bp)
  | c :: cs, i, codelengthcode, bp => do
    let (v, bp) ← if i < hclen then readBits bitstream bp 3 else .ok (0, bp)
    let codelengthcode ← writeAt .table codelengthcode c v
    codeLengthCodes hclen cs (i + 1) codelengthcode bp

/-- `get_tree_inflate_dynamic`: the two trees, and the bit pointer behind them. -/
def getTreeInflateDynamic (bp : ℕ) : Except Stop (HuffmanTree × HuffmanTree × ℕ) :=
  if bp >>> 3 ≥ sub32 inlength 2 then malformed
  else do
    let (hlit, bp) ← readBits bitstream bp 5
    let (hdist, bp) ← readBits bitstream bp 5
    let (hclen, bp) ← readBits bitstream bp 4
    let (codelengthcode, bp) ← codeLengthCodes bitstream (hclen + 4) clcl 0
      (List.replicate numCodeLengthCodes 0) bp
    let codelengthcodetree ← createLengths numCodeLengthCodes 7 codelengthcode
    let s ← lengthsLoop bitstream inlength codelengthcodetree (hlit + 257) (hdist + 1)
      (hlit + 257 + (hdist + 1))
      ⟨0, bp, List.replicate numDeflateCodeSymbols 0, List.replicate numDistanceSymbols 0⟩
    if s.bitlen.getD 256 0 = 0 then malformed
    else do
      let codetree ← createLengths numDeflateCodeSymbols 15 s.bitlen
      let codetreeD ← createLengths numDistanceSymbols 15 s.bitlenD
      .ok (codetree, codetreeD, s.bp)

end Dynamic

/-! ## Blocks -/

/-- The bit pointer and the bytes that have been written. -/
structure Inflating where
  bp : ℕ
  out : List UInt8
  deriving DecidableEq

section Blocks

variable (bitstream : List UInt8) (inlength outsize : ℕ)

/-- `out[(*pos)++] = c`. -/
def writeOut (out : List UInt8) (c : UInt8) : Except Stop (List UInt8) :=
  if out.length < outsize then .ok (out ++ [c]) else .error (.outOfBounds .outWrite)

/-- The loop that copies from the output, `start` being the position where it began. -/
def copyLoop (start distance : ℕ) : ℕ → ℕ → List UInt8 → Except Stop (List UInt8)
  | 0, _, out => .ok out
  | n + 1, backward, out => do
    let c ← readAt .outRead out backward
    let out ← writeOut outsize out c
    copyLoop start distance n
      (if backward + 1 ≥ start then sub32 start distance else backward + 1) out

/-- The branch of `inflate_huffman` for a length code. -/
def inflateMatch (codetreeD : HuffmanTree) (code : ℕ) (s : Inflating) : Except Stop Inflating := do
  let length ← readAt .table lengthBase (code - 257)
  let numextrabits ← readAt .table lengthExtra (code - 257)
  if s.bp >>> 3 ≥ inlength then malformed
  else
    let (extra, bp) ← readBits bitstream s.bp numextrabits
    let (codeD, bp) ← decodeSymbol codetreeD bitstream inlength bp
    if codeD > 29 then malformed
    else
      let distance ← readAt .table distanceBase codeD
      let numextrabitsD ← readAt .table distanceExtra codeD
      if bp >>> 3 ≥ inlength then malformed
      else
        let (extraD, bp) ← readBits bitstream bp numextrabitsD
        if s.out.length + (length + extra) ≥ outsize then malformed
        else
          let out ← copyLoop outsize s.out.length (distance + extraD) (length + extra)
            (sub32 s.out.length (distance + extraD)) s.out
          .ok ⟨bp, out⟩

/-- The loop of `inflate_huffman`. -/
def inflateLoop (codetree codetreeD : HuffmanTree) : ℕ → Inflating → Except Stop Inflating
  | 0, _ => .error .outOfFuel
  | fuel + 1, s => do
    let (code, bp) ← decodeSymbol codetree bitstream inlength s.bp
    if code = 256 then .ok ⟨bp, s.out⟩
    else if code ≤ 255 then
      if s.out.length ≥ outsize then malformed
      else do
        let out ← writeOut outsize s.out (UInt8.ofNat code)
        inflateLoop codetree codetreeD fuel ⟨bp, out⟩
    else if 257 ≤ code ∧ code ≤ 285 then do
      let s ← inflateMatch bitstream inlength outsize codetreeD code ⟨bp, s.out⟩
      inflateLoop codetree codetreeD fuel s
    else inflateLoop codetree codetreeD fuel ⟨bp, s.out⟩

/-- Every symbol takes a bit at least, and the header of a block ends a few bytes behind the
input at the latest. -/
def inflateFuel (inlength : ℕ) : ℕ := 8 * (inlength + 16)

/-- `inflate_huffman`. -/
def inflateHuffman (btype : ℕ) (s : Inflating) : Except Stop Inflating := do
  let (codetree, codetreeD, bp) ←
    if btype = 1 then .ok (fixedCodetree, fixedCodetreeD, s.bp)
    else getTreeInflateDynamic bitstream inlength s.bp
  inflateLoop bitstream inlength outsize codetree codetreeD (inflateFuel inlength) ⟨bp, s.out⟩

/-- The loop that goes to the first boundary of a byte. -/
def toBoundary : ℕ → ℕ → ℕ
  | 0, bp => bp
  | n + 1, bp => if bp &&& 0x7 ≠ 0 then toBoundary n (bp + 1) else bp

/-- The loop that copies `n` bytes of the input. -/
def storedLoop : ℕ → ℕ → List UInt8 → Except Stop (List UInt8)
  | 0, _, out => .ok out
  | n + 1, p, out => do
    let c ← readAt .bitstream bitstream p
    let out ← writeOut outsize out c
    storedLoop n (p + 1) out

/-- `inflate_uncompressed`. -/
def inflateUncompressed (s : Inflating) : Except Stop Inflating :=
  let p := toBoundary 7 s.bp / 8
  if p ≥ sub32 inlength 4 then malformed
  else do
    let len0 ← readAt .bitstream bitstream p
    let len1 ← readAt .bitstream bitstream (p + 1)
    let nlen0 ← readAt .bitstream bitstream (p + 2)
    let nlen1 ← readAt .bitstream bitstream (p + 3)
    let len := len0.toNat + 256 * len1.toNat
    let nlen := nlen0.toNat + 256 * nlen1.toNat
    if len + nlen ≠ 65535 then malformed
    else if s.out.length + len ≥ outsize then malformed
    else if p + 4 + len > inlength then malformed
    else do
      let out ← storedLoop bitstream outsize len (p + 4) s.out
      .ok ⟨(p + 4 + len) * 8, out⟩

/-- The branches of `uz_inflate_data` for the types of a block. -/
def inflateBlock (btype : ℕ) (s : Inflating) : Except Stop Inflating :=
  if btype = 3 then malformed
  else if btype = 0 then inflateUncompressed bitstream inlength outsize s
  else inflateHuffman bitstream inlength outsize btype s

/-! ## The stream -/

/-- The loop of `uz_inflate_data`. -/
def dataLoop : ℕ → Inflating → Except Stop Inflating
  | 0, _ => .error .outOfFuel
  | fuel + 1, s =>
    if s.bp >>> 3 ≥ inlength then malformed
    else do
      let (done, bp) ← readBit bitstream s.bp
      let (btype0, bp) ← readBit bitstream bp
      let (btype1, bp) ← readBit bitstream bp
      let s ← inflateBlock bitstream inlength outsize (btype0 ||| btype1 <<< 1) ⟨bp, s.out⟩
      if done = 0 then dataLoop fuel s else .ok s

end Blocks

/-- `uz_inflate_data`. -/
def uzInflateData (outsize : ℕ) (inp : List UInt8) (insize inpos : ℕ) : Except Stop Inflating :=
  dataLoop (inp.drop inpos) insize outsize (8 * insize + 1) ⟨0, []⟩

/-- `uz_inflate`, on a buffer of which the first `insize` bytes are the compressed data. -/
def uzInflate (outsize : ℕ) (inp : List UInt8) (insize : ℕ) : Except Stop (List UInt8) :=
  if insize < 2 then malformed
  else do
    let in0 ← readAt .bitstream inp 0
    let in1 ← readAt .bitstream inp 1
    if (in0.toNat * 256 + in1.toNat) % 31 ≠ 0 then malformed
    else if in0.toNat &&& 15 ≠ 8 ∨ in0.toNat >>> 4 &&& 15 > 7 then malformed
    else if in1.toNat >>> 5 &&& 1 ≠ 0 then malformed
    else do
      let s ← uzInflateData outsize inp insize 2
      .ok s.out

end AuroraOS
