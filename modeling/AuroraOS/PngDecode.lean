/-
# From a file to an image

The decoder of `gui/upng.c` as a whole.  A file that an encoder may have made of an image, with
any filters, any compressed form of the filtered lines and any division into chunks, is decoded
to the image.
-/
import AuroraOS.InflateSafe
import AuroraOS.InflateStream
import AuroraOS.PngFile

namespace AuroraOS

open Machine Overlay

/-! ## Images -/

/-- An image: its size, its pixels, its lines, and the filters that an encoder chooses. -/
structure Png where
  width : ℕ
  height : ℕ
  colorType : ℕ
  colorDepth : ℕ
  lines : ℕ → Bytes
  types : ℕ → FilterType

namespace Png

variable (png : Png)

/-- The bits of a pixel. -/
def bpp : ℕ := png.colorDepth * componentsOf png.colorType

/-- The bytes of a pixel, 1 for smaller pixels. -/
def bytewidth : ℕ := (png.bpp + 7) / 8

/-- The bytes of a line, with the bits that fill up the last one. -/
def linebytes : ℕ := (png.width * png.bpp + 7) / 8

/-- A filtered line, behind the type of its filter. -/
def scanline (y : ℕ) : List UInt8 :=
  (png.types y).code :: (List.range png.linebytes).map
    (residual (png.types y) png.bytewidth (above png.lines y) (png.lines y))

/-- The filtered lines. -/
def scanlines : List UInt8 := (List.range png.height).flatMap png.scanline

/-- The bytes of a file up to the first chunk behind the header; the length and the check value
of the header are not read. -/
def header (length crc : ℕ) : List UInt8 :=
  pngSignature ++ dword length ++ dword chunkIhdr ++ dword png.width ++ dword png.height ++
    [UInt8.ofNat png.colorDepth, UInt8.ofNat png.colorType, 0, 0, 0] ++ dword crc

/-- An image of a kind that the decoder knows. -/
structure Supported : Prop where
  width_pos : 0 < png.width
  height_pos : 0 < png.height
  width_lt : png.width < 2 ^ 32
  height_lt : png.height < 2 ^ 32
  format : determineFormat png.colorType png.colorDepth ≠ .badformat

variable {png}

/-- The kinds of pixels that the decoder knows: color types and depths. -/
def knownKinds : List (ℕ × ℕ) :=
  [(upngLum, 1), (upngLum, 2), (upngLum, 4), (upngLum, 8), (upngRgb, 8), (upngRgb, 16),
   (upngLuma, 1), (upngLuma, 2), (upngLuma, 4), (upngLuma, 8), (upngRgba, 8), (upngRgba, 16)]

theorem determineFormat_known {colorType colorDepth : ℕ}
    (h : determineFormat colorType colorDepth ≠ .badformat) :
    (colorType, colorDepth) ∈ knownKinds := by
  unfold determineFormat at h
  split_ifs at h <;> first | exact absurd rfl h | simp [knownKinds, *]

theorem Supported.pixel (h : png.Supported) : 0 < png.bpp ∧ (png.bpp < 8 ∨ png.bpp % 8 = 0) ∧
    png.colorType < 256 ∧ png.colorDepth < 256 := by
  have hall : ∀ k ∈ knownKinds, 0 < k.2 * componentsOf k.1 ∧
      (k.2 * componentsOf k.1 < 8 ∨ k.2 * componentsOf k.1 % 8 = 0) ∧ k.1 < 256 ∧ k.2 < 256 := by
    decide
  exact hall _ (determineFormat_known h.format)

/-- What the decoder reads of the header. -/
def known (png : Png) (u : Upng) : Upng := { u with
  width := png.width
  height := png.height
  colorType := png.colorType
  colorDepth := png.colorDepth
  format := determineFormat png.colorType png.colorDepth
  state := .header }

theorem length_header (length crc : ℕ) : (png.header length crc).length = 33 := rfl

/-- **The header of a file is accepted**, and read. -/
theorem Supported.upngHeader (h : png.Supported) {u : Upng} {length crc : ℕ} {rest : List UInt8}
    (herror : u.error = none) (hstate : u.state = .new)
    (hsource : u.source = png.header length crc ++ rest) :
    AuroraOS.upngHeader u = .ok (png.known u) := by
  obtain ⟨_, _, htype, hdepth⟩ := h.pixel
  have hat : BytesAt u.source 0 (png.header length crc) := ⟨[], rest, hsource, rfl⟩
  have hlong : ¬u.source.length < 29 := by
    rw [hsource, List.length_append, length_header]
    omega
  have hsignature : ¬u.source.take 8 ≠ pngSignature := by
    rw [hsource]
    exact not_not.mpr rfl
  simp only [header, BytesAt.append_iff] at hat
  obtain ⟨⟨⟨⟨⟨⟨_, _⟩, hihdr⟩, hwidth⟩, hheight⟩, hfields⟩, _⟩ := hat
  have h12 : dwordAt u.source 12 = .ok chunkIhdr := dwordAt_eq hihdr (by decide)
  have h16 : dwordAt u.source 16 = .ok png.width := dwordAt_eq hwidth h.width_lt
  have h20 : dwordAt u.source 20 = .ok png.height := dwordAt_eq hheight h.height_lt
  have hread : ∀ {i : ℕ} {b : UInt8}, [UInt8.ofNat png.colorDepth, UInt8.ofNat png.colorType, 0, 0,
      0][i]? = some b → readAt .source u.source (24 + i) = .ok b := fun hb =>
    readAt_eq (hfields.getElem? hb)
  rw [AuroraOS.upngHeader, if_neg (not_not.mpr herror), if_neg (not_not.mpr hstate), if_neg hlong,
    if_neg hsignature, h12, ok_bind, if_neg (not_not.mpr rfl), h16, ok_bind, h20, ok_bind,
    hread (i := 0) rfl, ok_bind, hread (i := 1) rfl, ok_bind, UInt8.toNat_ofNat',
    UInt8.toNat_ofNat', Nat.mod_eq_of_lt htype, Nat.mod_eq_of_lt hdepth, if_neg h.format,
    hread (i := 2) rfl, ok_bind, hread (i := 3) rfl, ok_bind, hread (i := 4) rfl, ok_bind]
  rfl

theorem length_scanline (y : ℕ) : (png.scanline y).length = 1 + png.linebytes := by
  rw [scanline, List.length_cons, List.length_map, List.length_range, Nat.add_comm]

end Png

/-! ## The filtered lines -/

section Lines

variable {α : Type} {f : ℕ → List α} {n : ℕ}

theorem length_flatMap_range (hlen : ∀ y, (f y).length = n) (h : ℕ) :
    ((List.range h).flatMap f).length = n * h := by
  induction h with
  | zero => rfl
  | succ h ih =>
    rw [List.range_succ, List.flatMap_append, List.length_append, ih, List.flatMap_singleton,
      hlen, Nat.mul_succ]

theorem getElem?_flatMap_range (hlen : ∀ y, (f y).length = n) {h y i : ℕ} (hy : y < h)
    (hi : i < n) :
    ((List.range h).flatMap f)[n * y + i]? = (f y)[i]? := by
  induction h with
  | zero => exact absurd hy (Nat.not_lt_zero y)
  | succ h ih =>
    have hall := length_flatMap_range hlen h
    rw [List.range_succ, List.flatMap_append, List.flatMap_singleton]
    rcases Nat.lt_or_eq_of_le (Nat.lt_succ_iff.mp hy) with hlt | rfl
    · have hrow : n * y + n ≤ n * h := by
        rw [← Nat.mul_succ]
        exact Nat.mul_le_mul_left n hlt
      rw [List.getElem?_append_left (by omega), ih hlt]
    · rw [List.getElem?_append_right (by omega), hall, Nat.add_sub_cancel_left]

end Lines

namespace Png

variable {png : Png}

theorem length_scanlines : png.scanlines.length = (1 + png.linebytes) * png.height :=
  length_flatMap_range length_scanline png.height

/-- The filtered lines, stored at an address. -/
theorem filteredAt_scanlines (m : Bytes) (inp : ℕ) :
    FilteredAt (overlay m inp png.scanlines.length fun i => png.scanlines.getD i 0) inp
      png.bytewidth png.linebytes png.height png.types png.lines := by
  intro y hy
  have hbyte : ∀ i ≤ png.linebytes, overlay m inp png.scanlines.length
      (fun i => png.scanlines.getD i 0) (inp + ((1 + png.linebytes) * y + i)) =
        (png.scanline y).getD i 0 := by
    intro i hi
    have hrow : (1 + png.linebytes) * y + (1 + png.linebytes) ≤
        (1 + png.linebytes) * png.height := by
      rw [← Nat.mul_succ]
      exact Nat.mul_le_mul_left _ hy
    have hlen := png.length_scanlines
    rw [overlay_inside (by omega), List.getD_eq_getElem?_getD, List.getD_eq_getElem?_getD,
      scanlines, getElem?_flatMap_range length_scanline hy (by omega)]
  constructor
  · exact hbyte 0 (Nat.zero_le _)
  · intro i hi
    have hnext := hbyte (i + 1) hi
    have haddr : inp + ((1 + png.linebytes) * y + 1) + i =
        inp + ((1 + png.linebytes) * y + (i + 1)) := by omega
    rw [haddr, hnext, scanline, List.getD_cons_succ, List.getD_eq_getElem?_getD, List.getElem?_map,
      List.getElem?_range hi]
    rfl

/-! ## Decoding -/

/-- A file that an encoder may have made of an image. -/
def EncodedBy (png : Png) (file : List UInt8) : Prop :=
  ∃ (length crc : ℕ) (chunks : List Chunk) (ending : List UInt8),
    file = png.header length crc ++ (chunks.flatMap Chunk.bytes ++ ending) ∧
    (∀ c ∈ chunks, c.Passed) ∧ Ends ending ∧ Compresses (payloads chunks) png.scanlines

/-- An image whose filtered lines fit the size that the decoder computes for them. -/
structure Fits (png : Png) : Prop where
  noOverflow : png.width * (png.height * png.bpp + 7) < 2 ^ 32
  lines : (1 + png.linebytes) * png.height < inflatedSize png.width png.height png.bpp
  static : inflatedSize png.width png.height png.bpp ≤ maxPngSize

theorem length_chunks (chunks : List Chunk) :
    chunks.length + (payloads chunks).length ≤ (chunks.flatMap Chunk.bytes).length := by
  induction chunks with
  | nil => exact le_rfl
  | cons c chunks ih =>
    have hpayload : c.payload.length ≤ c.data.length := by
      rw [Chunk.payload]
      split_ifs
      · exact le_rfl
      · exact Nat.zero_le _
    rw [payloads, List.flatMap_cons, List.flatMap_cons, List.length_append, List.length_append,
      List.length_cons, Chunk.length_bytes, ← payloads]
    omega

section Known

variable (u : Upng)

@[simp] theorem known_error : (png.known u).error = u.error := rfl
@[simp] theorem known_source : (png.known u).source = u.source := rfl
@[simp] theorem known_buffer : (png.known u).buffer = u.buffer := rfl
@[simp] theorem known_width : (png.known u).width = png.width := rfl
@[simp] theorem known_height : (png.known u).height = png.height := rfl
@[simp] theorem known_bpp : (png.known u).bpp = png.bpp := rfl
@[simp] theorem known_state : (png.known u).state = .header := rfl

end Known

/-- **A file is decoded to the image**, whatever filters, compressed form and chunks the encoder
chose; nothing else is written but the inflated data. -/
theorem Supported.upngDecode (h : png.Supported) (hfits : png.Fits) {u : Upng}
    (hfile : png.EncodedBy u.source) (hsource : u.source.length ≤ maxPngSize)
    (herror : u.error = none) (hstate : u.state = .new) {buffer inflated : ℕ}
    (hbuffer : u.buffer = some buffer) (hapart : buffer + png.linebytes * png.height ≤ inflated ∨
      inflated + (1 + png.linebytes) * png.height ≤ buffer) (one : List UInt8) (m : Bytes) :
    ∃ m', AuroraOS.upngDecode one inflated m u = .ok ({ png.known u with
        size := (png.width * png.height * png.bpp + 7) / 8, state := .decoded, source := [] }, m') ∧
      (∀ y < png.height, ∀ x < png.width * png.bpp,
        bitsOf m' (8 * buffer + (png.width * png.bpp * y + x)) = lineBit png.lines y x) ∧
      ∀ k, k < 8 * buffer ∨ 8 * buffer + png.width * png.bpp * png.height ≤ k →
        k < 8 * inflated ∨ 8 * (inflated + (1 + png.linebytes) * png.height) ≤ k →
        bitsOf m' k = bitsOf m k := by
  obtain ⟨length, crc, chunks, ending, hsplit, hpassed, hend, hdata⟩ := hfile
  obtain ⟨hbpp, hdepth, _, _⟩ := h.pixel
  have hw := h.width_pos
  have hh := h.height_pos
  have hlines := hfits.lines
  have hstatic := hfits.static
  have hover := hfits.noOverflow
  -- the chunks
  have hlast : u.source.length = 33 + (chunks.flatMap Chunk.bytes ++ ending).length := by
    rw [hsplit, List.length_append, length_header]
  have hcount := length_chunks chunks
  have hmax : maxPngSize = 3145728 := rfl
  rw [List.length_append] at hlast
  have hchunks : BytesAt u.source 33 (chunks.flatMap Chunk.bytes ++ ending) :=
    ⟨png.header length crc, [], by rw [List.append_nil, hsplit], rfl⟩
  have hscans := @scans_eq u.source (by omega) ending hend chunks 33 0 (u.source.length + 1) []
    hpassed hchunks (by rw [List.length_append]; omega) (by omega) (by omega)
  rw [Nat.zero_add, List.length_nil, Nat.zero_add, List.nil_append] at hscans
  obtain ⟨hscan, hcopy⟩ := hscans
  -- the inflated data
  have hinflate := @uzInflate_compressed (inflatedSize png.width png.height png.bpp) _ _
    (one.drop (payloads chunks).length) hdata (by omega) (by omega)
    (by rw [length_scanlines]; exact hlines)
  -- the lines
  have hline : png.width * png.bpp + png.width * 7 ≤ png.width * (png.height * png.bpp + 7) := by
    rw [Nat.mul_add]
    exact Nat.add_le_add_right (Nat.mul_le_mul_left _ (Nat.le_mul_of_pos_left _ hh)) _
  have harea : png.width * (png.height * png.bpp + 7) =
      png.width * png.height * png.bpp + png.width * 7 := by ring
  have hfiltered := png.filteredAt_scanlines m inflated
  obtain ⟨m', hm', hbits, hframe⟩ := postProcessScanlines_eq hw hbpp hdepth
    (by show 8 * ((1 + png.linebytes) * png.height) < 2 ^ 32; omega) (by omega) hfiltered hapart
  refine ⟨m', ?_, hbits, fun k hout hinp => ?_⟩
  · rw [AuroraOS.upngDecode, if_neg (not_not.mpr herror), h.upngHeader herror hstate hsplit,
      ok_bind, known_error, if_neg (not_not.mpr herror), known_state, if_neg (not_not.mpr rfl), known_source,
      hscan, settle_ok, ok_bind]
    dsimp only
    rw [if_neg (by omega), hcopy (by omega), ok_bind, known_width, known_height, known_bpp,
      if_neg (by omega), hinflate, settle_ok, ok_bind, known_buffer, hbuffer]
    dsimp only
    rw [hm', settle_ok, ok_bind]
    dsimp only
    rw [Nat.mul_comm png.height, Nat.mod_eq_of_lt (by omega)]
    rfl
  · have hlen := png.length_scanlines
    have hunfiltered : png.linebytes * png.height ≤ (1 + png.linebytes) * png.height :=
      Nat.mul_le_mul_right _ (by omega)
    rw [hframe k hout (by
      show k < 8 * inflated ∨ 8 * (inflated + png.linebytes * png.height) ≤ k
      omega), bitsOf_overlay_outside (by omega)]

end Png

/-! ## Arbitrary files -/

/-- A line is filled in or refused, whatever its sizes are. -/
theorem unfilterScanline_total (recon scanline : ℕ) (precon : Option ℕ) (bytewidth : ℕ)
    (filterType : UInt8) (length : ℕ) (m : Bytes) :
    (∃ m', unfilterScanline recon scanline precon bytewidth filterType length m = .ok m') ∨
      unfilterScanline recon scanline precon bytewidth filterType length m = malformed := by
  unfold unfilterScanline
  dsimp only
  split <;> first | exact .inl ⟨_, rfl⟩ | exact .inr rfl

theorem unfilterLoop_total (out inp bytewidth linebytes : ℕ) {n : ℕ} :
    ∀ {y : ℕ} {prevline : Option ℕ} {m : Bytes},
      (∃ m', unfilterLoop out inp bytewidth linebytes n y prevline m = .ok m') ∨
        unfilterLoop out inp bytewidth linebytes n y prevline m = malformed := by
  induction n with
  | zero => intro y prevline m; exact .inl ⟨m, rfl⟩
  | succ n ih =>
    intro y prevline m
    rw [unfilterLoop]
    rcases unfilterScanline_total (out + linebytes * y % 2 ^ 32)
      (inp + ((1 + linebytes) * y % 2 ^ 32 + 1)) prevline bytewidth
      (m (inp + (1 + linebytes) * y % 2 ^ 32)) linebytes m with ⟨m', hm'⟩ | hm'
    · rw [hm', ok_bind]
      exact ih
    · rw [hm']
      exact .inr rfl

theorem postProcessScanlines_total (out inp w h bpp : ℕ) (m : Bytes) :
    (∃ m', postProcessScanlines out inp w h bpp m = .ok m') ∨
      postProcessScanlines out inp w h bpp m = malformed := by
  rw [postProcessScanlines]
  split_ifs
  · exact .inr rfl
  · rcases unfilterLoop_total inp inp ((bpp + 7) / 8) ((w * bpp + 7) % 2 ^ 32 / 8) (n := h) (y := 0)
      with ⟨m', hm'⟩ | hm'
    · rw [unfilter, hm']
      exact .inl ⟨_, rfl⟩
    · rw [unfilter, hm']
      exact .inr rfl
  · exact unfilterLoop_total out inp _ _

/-- What the header leaves behind. -/
structure HeaderRead (u u' : Upng) : Prop where
  source : u'.source = u.source
  state : u'.error = none → u'.state = .header
  new : u'.state = .new ∨ u'.state = .header

/-- The header is read inside of the file, or the file is refused. -/
theorem upngHeader_safe {u : Upng} (herror : u.error = none) (hstate : u.state = .new) :
    Ensures (fun _ => False) (HeaderRead u) (upngHeader u) := by
  have hfail : ∀ {u' : Upng} {e : UpngError}, u'.source = u.source → u'.state = .new →
      Ensures (fun _ : Stop => False) (HeaderRead u) (.ok (u'.fail e)) := fun hsource hnew =>
    .ok ⟨hsource, (fun h => by cases h), .inl hnew⟩
  rw [upngHeader, if_neg (not_not.mpr herror), if_neg (not_not.mpr hstate)]
  refine Ensures.ite (fun _ => hfail rfl hstate) fun hlong => ?_
  refine Ensures.ite (fun _ => hfail rfl hstate) fun _ => ?_
  obtain ⟨type, _, htype⟩ := @dwordAt_of_le u.source 12 (by omega)
  rw [htype, ok_bind]
  refine Ensures.ite (fun _ => hfail rfl hstate) fun _ => ?_
  obtain ⟨width, _, hwidth⟩ := @dwordAt_of_le u.source 16 (by omega)
  obtain ⟨height, _, hheight⟩ := @dwordAt_of_le u.source 20 (by omega)
  have hread : ∀ {i}, i < 29 → ∃ b, readAt .source u.source i = .ok b := fun hi =>
    ⟨_, readAt_of_lt (by omega)⟩
  obtain ⟨depth, hdepth⟩ := hread (by decide : 24 < 29)
  obtain ⟨color, hcolor⟩ := hread (by decide : 25 < 29)
  obtain ⟨compression, hcompression⟩ := hread (by decide : 26 < 29)
  obtain ⟨filter, hfilter⟩ := hread (by decide : 27 < 29)
  obtain ⟨interlace, hinterlace⟩ := hread (by decide : 28 < 29)
  rw [hwidth, ok_bind, hheight, ok_bind, hdepth, ok_bind, hcolor, ok_bind]
  refine Ensures.ite (fun _ => hfail rfl hstate) fun _ => ?_
  dsimp only
  rw [hcompression, ok_bind, hfilter, ok_bind, hinterlace, ok_bind]
  refine Ensures.ite (fun _ => hfail rfl hstate) fun _ => ?_
  refine Ensures.ite (fun _ => hfail rfl hstate) fun _ => ?_
  refine Ensures.ite (fun _ => hfail rfl hstate) fun _ => ?_
  exact .ok ⟨rfl, fun _ => rfl, .inr rfl⟩

/-- The accesses outside of an array, or through a pointer that is not set, that a file can
bring about. -/
def Stop.OfFile (stop : Stop) : Prop :=
  ∃ a, stop = .outOfBounds a ∧ (a = .blcount ∨ a = .previous ∨ a = .outRead ∨ a = .inflated)

end AuroraOS
