/-
# An encoder

The source has no encoder for the files that `gui/upng.c` decodes.  The one here is a
specification: every image of a known kind has a file, so what is proved about files of an image
is about something, and a file is a file of one image only.
-/
import AuroraOS.PngDecode

namespace AuroraOS

open BitStream Lz77 Machine Overlay

/-! ## Compressed data -/

/-- A compressed form of some data: one block with the fixed codes, and no copies. -/
def deflate (data : List UInt8) : List UInt8 :=
  0x78 :: 0x01 :: pack (streamBits [.fixed (data.map .literal)])

theorem valid_literals (data : List UInt8) :
    ∀ n, Valid n (data.map (Token.literal : UInt8 → Token UInt8)) := by
  induction data with
  | nil => intro n; trivial
  | cons c data ih => intro n; exact ⟨trivial, ih _⟩

/-- **Every list of bytes has a compressed form.** -/
theorem compresses_deflate (data : List UInt8) : Compresses (deflate data) data := by
  have htokens : streamTokens [.fixed (data.map .literal)] = data.map Token.literal := by
    rw [streamTokens, List.flatMap_singleton, Block.tokens, List.map_map]
    rfl
  refine ⟨0x78, 0x01, [.fixed (data.map .literal)], [], ?_, List.cons_ne_nil _ _, ⟨?_, trivial⟩,
    ?_, ?_, ?_⟩
  · constructor <;> decide
  · intro x hx
    obtain ⟨c, _, rfl⟩ := List.mem_map.mp hx
    have hc := c.toNat_lt
    exact Finset.mem_range.mpr (by rw [numDeflateCodeSymbols]; omega)
  · rw [htokens]
    exact valid_literals data 0
  · rw [htokens, expand_literals, List.nil_append]
  · rw [List.append_nil]
    rfl

/-- A literal takes nine bits at most. -/
theorem length_literals_le (data : List UInt8) :
    ((data.map Item.literal).flatMap (Item.bits fixedCode fixedCodeD)).length ≤
      9 * data.length := by
  induction data with
  | nil => exact le_rfl
  | cons c data ih =>
    have hword : (fixedCode.word c.toNat).length ≤ 9 := by
      rw [fixedCode]
      dsimp only
      split_ifs <;> rw [length_msb] <;> omega
    rw [List.map_cons, List.flatMap_cons, List.length_append, List.length_cons, Item.bits]
    omega

theorem length_deflate_le (data : List UInt8) :
    (deflate data).length ≤ 2 + (9 * data.length + 17) / 8 := by
  have hitems := length_literals_le data
  have hend : (fixedCode.word 256).length = 7 := rfl
  rw [deflate, List.length_cons, List.length_cons, length_pack, streamBits, Block.bits,
    List.length_cons, List.length_append, length_lsb, Block.body, itemBits, List.length_append,
    hend]
  omega

/-- **Compression is undone by the decoder**: the data has a compressed form, and whichever
compressed form an encoder makes, with any blocks, codes and copies, it is inflated to the data,
whatever stands behind it in the buffer. -/
theorem inflate_roundTrip {data : List UInt8} {outsize : ℕ} (hout : outsize < 2 ^ 32)
    (hsize : data.length < outsize) :
    (∃ compressed, Compresses compressed data) ∧
      ∀ compressed rest : List UInt8, Compresses compressed data →
        compressed.length < 2 ^ 32 →
        uzInflate outsize (compressed ++ rest) compressed.length = .ok data :=
  ⟨⟨_, compresses_deflate data⟩, fun _ _ hdata hin => uzInflate_compressed hdata hin hout hsize⟩

theorem inflate_roundTrip_abc :
    uzInflate 4 (deflate [97, 98, 99] ++ [255]) (deflate [97, 98, 99]).length =
      .ok [97, 98, 99] := by
  have hlen := length_deflate_le [97, 98, 99]
  exact (inflate_roundTrip (by decide) (by decide)).2 _ [255] (compresses_deflate _)
    (hlen.trans_lt (by decide))

/-! ## Files -/

namespace Png

variable (png : Png)

/-- The chunk with the filtered lines, and the last chunk. -/
def idat : Chunk := ⟨chunkIdat, deflate png.scanlines, 0⟩
def iend : Chunk := ⟨chunkIend, [], 0⟩

/-- A file of an image. -/
def encode : List UInt8 := png.header 13 0 ++ ([png.idat].flatMap Chunk.bytes ++ iend.bytes)

variable {png}

theorem length_encode : png.encode.length = 57 + (deflate png.scanlines).length := by
  rw [encode, List.length_append, List.length_append, length_header, List.flatMap_singleton,
    Chunk.length_bytes, Chunk.length_bytes]
  show 33 + ((deflate png.scanlines).length + 12 + 12) = _
  omega

theorem encodedBy_encode (h : png.encode.length ≤ maxPngSize) : png.EncodedBy png.encode := by
  have hmax : maxPngSize = 3145728 := rfl
  rw [length_encode] at h
  refine ⟨13, 0, [png.idat], iend.bytes, rfl, fun c hc => ?_, .inr ?_, ?_⟩
  · obtain rfl := List.mem_singleton.mp hc
    refine ⟨(by decide : chunkIdat < 2 ^ 32), ?_, .inl rfl⟩
    show (deflate png.scanlines).length ≤ _
    omega
  · exact ⟨iend, [], ⟨rfl, Nat.zero_le _⟩, (List.append_nil _).symm⟩
  · rw [payloads, List.flatMap_singleton, Chunk.payload, idat, if_pos rfl]
    exact compresses_deflate _

/-- Images with the same pixels; how their lines were filtered does not count, nor do the bits
that fill up a line. -/
structure Same (png png' : Png) : Prop where
  width : png.width = png'.width
  height : png.height = png'.height
  colorType : png.colorType = png'.colorType
  colorDepth : png.colorDepth = png'.colorDepth
  lines : ∀ y < png.height, ∀ x < png.width * png.bpp,
    lineBit png.lines y x = lineBit png'.lines y x

/-- **A file is a file of one image only.** -/
theorem encodedBy_unique {png png' : Png} (h : png.Supported) (h' : png'.Supported)
    (hfits : png.Fits) (hfits' : png'.Fits) {file : List UInt8} (hfile : png.EncodedBy file)
    (hfile' : png'.EncodedBy file) (hlen : file.length ≤ maxPngSize) : png.Same png' := by
  obtain ⟨u, hu⟩ : ∃ u, u = { upngNewFromFile file with buffer := some 0 } := ⟨_, rfl⟩
  have hsource : u.source = file := by rw [hu]; rfl
  have herror : u.error = none := by rw [hu]; rfl
  have hstate : u.state = .new := by rw [hu]; rfl
  have hbuffer : u.buffer = some 0 := by rw [hu]
  rw [← hsource] at hfile hfile' hlen
  obtain ⟨inflated, hinflated⟩ : ∃ i, i = png.linebytes * png.height +
    png'.linebytes * png'.height := ⟨_, rfl⟩
  have hapart : 0 + png.linebytes * png.height ≤ inflated := by omega
  have hapart' : 0 + png'.linebytes * png'.height ≤ inflated := by omega
  obtain ⟨m, hm, hbits, _⟩ := h.upngDecode hfits hfile hlen herror hstate hbuffer
    (.inl hapart) [] fun _ => 0
  obtain ⟨m', hm', hbits', _⟩ := h'.upngDecode hfits' hfile' hlen herror hstate hbuffer
    (.inl hapart') [] fun _ => 0
  have heq := Except.ok.inj (hm.symm.trans hm')
  obtain rfl : m = m' := congrArg Prod.snd heq
  have hwidth : png.width = png'.width := congrArg (fun r => r.1.width) heq
  have hheight : png.height = png'.height := congrArg (fun r => r.1.height) heq
  have htype : png.colorType = png'.colorType := congrArg (fun r => r.1.colorType) heq
  have hdepth : png.colorDepth = png'.colorDepth := congrArg (fun r => r.1.colorDepth) heq
  have hbpp : png.bpp = png'.bpp := by rw [bpp, htype, hdepth, bpp]
  refine ⟨hwidth, hheight, htype, hdepth, fun y hy x hx => ?_⟩
  have hbit := hbits y hy x hx
  rw [hwidth, hbpp] at hbit
  rw [← hbit, hbits' y (by omega) x (by rwa [← hwidth, ← hbpp])]

/-- **Images survive their files.**  An image has a file, and whatever file an encoder makes of it,
with any filters, compressed form and chunks, `upng_new_from_file` and `upng_decode` give its size
and its pixels; nothing else is written but the inflated data. -/
theorem upng_roundTrip (h : png.Supported) (hfits : png.Fits)
    (hlen : png.encode.length ≤ maxPngSize) {buffer inflated : ℕ}
    (hapart : buffer + png.linebytes * png.height ≤ inflated ∨
      inflated + (1 + png.linebytes) * png.height ≤ buffer) :
    (∃ file : List UInt8, file.length ≤ maxPngSize ∧ png.EncodedBy file) ∧
      ∀ (file one : List UInt8) (m : Bytes), file.length ≤ maxPngSize → png.EncodedBy file →
        ∃ u m', AuroraOS.upngDecode one inflated m
            { upngNewFromFile file with buffer := some buffer } = .ok (u, m') ∧
          u.error = none ∧ u.state = .decoded ∧ u.width = png.width ∧ u.height = png.height ∧
          u.bpp = png.bpp ∧ u.size = (png.width * png.height * png.bpp + 7) / 8 ∧
          (∀ y < png.height, ∀ x < png.width * png.bpp,
            bitsOf m' (8 * buffer + (png.width * png.bpp * y + x)) = lineBit png.lines y x) ∧
          ∀ k, k < 8 * buffer ∨ 8 * buffer + png.width * png.bpp * png.height ≤ k →
            k < 8 * inflated ∨ 8 * (inflated + (1 + png.linebytes) * png.height) ≤ k →
            bitsOf m' k = bitsOf m k := by
  refine ⟨⟨_, hlen, encodedBy_encode hlen⟩, fun file one m hle hfile => ?_⟩
  obtain ⟨m', hdecode, hbits, hframe⟩ := h.upngDecode hfits
    (u := { upngNewFromFile file with buffer := some buffer }) hfile hle rfl rfl rfl hapart one m
  exact ⟨_, m', hdecode, rfl, rfl, rfl, rfl, rfl, rfl, hbits, hframe⟩

/-- An image of two pixels, a red and a green one. -/
def twoPixels : Png where
  width := 2
  height := 1
  colorType := upngRgb
  colorDepth := 8
  lines _ i := if i = 0 ∨ i = 4 then 255 else 0
  types _ := .sub

theorem twoPixels_supported : twoPixels.Supported := by
  constructor <;> decide

theorem twoPixels_fits : twoPixels.Fits := by
  constructor <;> decide

theorem length_encode_twoPixels : twoPixels.encode.length ≤ 512 := by
  have hlines : twoPixels.scanlines.length = 7 := length_scanlines
  have hlen := length_deflate_le twoPixels.scanlines
  rw [length_encode]
  omega

theorem encodedBy_unique_twoPixels : twoPixels.Same twoPixels :=
  have hlen := length_encode_twoPixels.trans (by decide : 512 ≤ maxPngSize)
  encodedBy_unique twoPixels_supported twoPixels_supported twoPixels_fits twoPixels_fits
    (encodedBy_encode hlen) (encodedBy_encode hlen) hlen

theorem upng_roundTrip_twoPixels : ∃ u m', AuroraOS.upngDecode [] 16 (fun _ => 0)
    { upngNewFromFile twoPixels.encode with buffer := some 0 } = .ok (u, m') ∧ u.error = none ∧
      ∀ x < 48, bitsOf m' x = decide (x < 8 ∨ 32 ≤ x ∧ x < 40) := by
  have hlen := length_encode_twoPixels.trans (by decide : 512 ≤ maxPngSize)
  obtain ⟨u, m', hdecode, herror, _, _, _, _, _, hbits, _⟩ :=
    (upng_roundTrip twoPixels_supported twoPixels_fits hlen
      (.inl (by decide : 0 + twoPixels.linebytes * twoPixels.height ≤ 16))).2
      twoPixels.encode [] (fun _ => 0) hlen (encodedBy_encode hlen)
  refine ⟨u, m', hdecode, herror, fun x hx => ?_⟩
  have hbit := hbits 0 (by decide) x hx
  rw [Nat.mul_zero, Nat.mul_zero, Nat.zero_add, Nat.zero_add] at hbit
  have hall : ∀ x < 48, lineBit twoPixels.lines 0 x = decide (x < 8 ∨ 32 ≤ x ∧ x < 40) := by
    decide
  rw [hbit, hall x hx]

end Png

end AuroraOS
