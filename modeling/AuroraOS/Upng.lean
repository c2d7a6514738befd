/-
# Decoding a PNG file

The outer part of the decoder `gui/upng.c`: the header of a file, the two scans over its chunks,
and `upng_decode`, which inflates the data of the chunks and takes the filters back.

Buffers that are only read, or that are written once, are lists; the inflated data and the image
are in one memory, at the addresses of `fake_malloced_space_two` and of the buffer of the caller.
-/
import AuroraOS.Inflate
import AuroraOS.Unfilter

namespace AuroraOS

open Machine Overlay

/-- `upng_format`. -/
inductive UpngFormat
  | badformat
  | rgb8
  | rgb16
  | rgba8
  | rgba16
  | luminance1
  | luminance2
  | luminance4
  | luminance8
  | luminanceAlpha1
  | luminanceAlpha2
  | luminanceAlpha4
  | luminanceAlpha8
  deriving DecidableEq, Repr

/-- `upng_state`. -/
inductive UpngState
  | error
  | decoded
  | header
  | new
  deriving DecidableEq, Repr

/-- `upng_t`: no error is `UPNG_EOK`, no buffer is `NULL`, and the source is given by its bytes. -/
structure Upng where
  width : ℕ
  height : ℕ
  colorType : ℕ
  colorDepth : ℕ
  format : UpngFormat
  buffer : Option ℕ
  size : ℕ
  error : Option UpngError
  state : UpngState
  source : List UInt8
  deriving DecidableEq

/-- `UPNG_LUM`, `UPNG_RGB`, `UPNG_LUMA` and `UPNG_RGBA`. -/
abbrev upngLum : ℕ := 0
abbrev upngRgb : ℕ := 2
abbrev upngLuma : ℕ := 4
abbrev upngRgba : ℕ := 6

/-- `MAX_PNG_SIZE`, the size of the two static buffers. -/
abbrev maxPngSize : ℕ := 3145728

/-- `MAKE_DWORD`. -/
def makeDword (a b c d : UInt8) : ℕ :=
  a.toNat <<< 24 ||| b.toNat <<< 16 ||| c.toNat <<< 8 ||| d.toNat

/-- `CHUNK_IHDR`, `CHUNK_IDAT` and `CHUNK_IEND`. -/
def chunkIhdr : ℕ := makeDword 73 72 68 82
def chunkIdat : ℕ := makeDword 73 68 65 84
def chunkIend : ℕ := makeDword 73 69 78 68

/-- `MAKE_DWORD_PTR`. -/
def dwordAt (source : List UInt8) (p : ℕ) : Except Stop ℕ := do
  let a ← readAt .source source p
  let b ← readAt .source source (p + 1)
  let c ← readAt .source source (p + 2)
  let d ← readAt .source source (p + 3)
  .ok (makeDword a b c d)

/-- `length` bytes of the source. -/
def bytesAt (source : List UInt8) (p length : ℕ) : Except Stop (List UInt8) :=
  if p + length ≤ source.length then .ok ((source.drop p).take length)
  else .error (.outOfBounds .source)

/-- The components of a pixel of a color type. -/
def componentsOf (colorType : ℕ) : ℕ :=
  if colorType = upngLum then 1
  else if colorType = upngRgb then 3
  else if colorType = upngLuma then 2
  else if colorType = upngRgba then 4
  else 0

namespace Upng

/-- `SET_ERROR`. -/
def fail (u : Upng) (e : UpngError) : Upng := { u with error := some e }

/-- `upng_get_components`. -/
def components (u : Upng) : ℕ := componentsOf u.colorType

/-- `upng_get_bpp`. -/
def bpp (u : Upng) : ℕ := u.colorDepth * u.components

/-- `upng_get_pixelsize`. -/
def pixelsize (u : Upng) : ℕ := u.colorDepth * u.components + u.colorDepth * u.components % 8

end Upng

/-- `determine_format`. -/
def determineFormat (colorType colorDepth : ℕ) : UpngFormat :=
  if colorType = upngLum then
    if colorDepth = 1 then .luminance1
    else if colorDepth = 2 then .luminance2
    else if colorDepth = 4 then .luminance4
    else if colorDepth = 8 then .luminance8
    else .badformat
  else if colorType = upngRgb then
    if colorDepth = 8 then .rgb8
    else if colorDepth = 16 then .rgb16
    else .badformat
  else if colorType = upngLuma then
    if colorDepth = 1 then .luminanceAlpha1
    else if colorDepth = 2 then .luminanceAlpha2
    else if colorDepth = 4 then .luminanceAlpha4
    else if colorDepth = 8 then .luminanceAlpha8
    else .badformat
  else if colorType = upngRgba then
    if colorDepth = 8 then .rgba8
    else if colorDepth = 16 then .rgba16
    else .badformat
  else .badformat

/-- The first eight bytes of a file. -/
def pngSignature : List UInt8 := [137, 80, 78, 71, 13, 10, 26, 10]

/-- `upng_header`. -/
def upngHeader (u : Upng) : Except Stop Upng :=
  if u.error ≠ none then .ok u
  else if u.state ≠ .new then .ok u
  else if u.source.length < 29 then .ok (u.fail .notpng)
  else if u.source.take 8 ≠ pngSignature then .ok (u.fail .notpng)
  else do
    let type ← dwordAt u.source 12
    if type ≠ chunkIhdr then .ok (u.fail .malformed)
    else
      let width ← dwordAt u.source 16
      let height ← dwordAt u.source 20
      let colorDepth ← readAt .source u.source 24
      let colorType ← readAt .source u.source 25
      let format := determineFormat colorType.toNat colorDepth.toNat
      let u := { u with
        width := width, height := height, colorDepth := colorDepth.toNat,
        colorType := colorType.toNat, format := format }
      if format = .badformat then .ok (u.fail .unformat)
      else
        let compression ← readAt .source u.source 26
        let filter ← readAt .source u.source 27
        let interlace ← readAt .source u.source 28
        if compression ≠ 0 then .ok (u.fail .malformed)
        else if filter ≠ 0 then .ok (u.fail .malformed)
        else if interlace ≠ 0 then .ok (u.fail .uninterlaced)
        else .ok { u with state := .header }

/-! ## Chunks -/

/-- The first scan over the chunks, from `chunk` on: the size of the compressed data. -/
def scanChunks (source : List UInt8) : ℕ → ℕ → ℕ → Except Stop ℕ
  | 0, _, _ => .error .outOfFuel
  | fuel + 1, chunk, compressedSize =>
    if chunk < source.length then
      if (chunk + 12) % 2 ^ 32 > source.length then malformed
      else do
        let length ← dwordAt source chunk
        if length > 2147483647 then malformed
        else if (chunk + length + 12) % 2 ^ 32 > source.length then malformed
        else
          let type ← dwordAt source (chunk + 4)
          if type = chunkIdat then
            scanChunks source fuel (chunk + (length + 12)) ((compressedSize + length) % 2 ^ 32)
          else if type = chunkIend then .ok compressedSize
          else
            let first ← readAt .source source (chunk + 4)
            if first &&& 32 = 0 then .error (.error .unsupported)
            else scanChunks source fuel (chunk + (length + 12)) compressedSize
    else .ok compressedSize

/-- The second scan: the compressed data, behind what has been copied already. -/
def copyChunks (source : List UInt8) : ℕ → ℕ → List UInt8 → Except Stop (List UInt8)
  | 0, _, _ => .error .outOfFuel
  | fuel + 1, chunk, compressed =>
    if chunk < source.length then do
      let length ← dwordAt source chunk
      let type ← dwordAt source (chunk + 4)
      if type = chunkIdat then
        let data ← bytesAt source (chunk + 8) length
        if compressed.length + length > maxPngSize then .error (.outOfBounds .compressed)
        else copyChunks source fuel (chunk + (length + 12)) (compressed ++ data)
      else if type = chunkIend then .ok compressed
      else copyChunks source fuel (chunk + (length + 12)) compressed
    else .ok compressed

/-! ## The image -/

/-- The error of a function that `upng_decode` calls; other stops end `upng_decode`, too. -/
def settle {α : Type} : Except Stop α → Except Stop (Except UpngError α)
  | .ok a => .ok (.ok a)
  | .error (.error e) => .ok (.error e)
  | .error stop => .error stop

theorem settle_ok {α : Type} (a : α) : settle (.ok a) = .ok (.ok a) := rfl

/-- The size that is given to the inflated data, with the arithmetic of `unsigned`. -/
def inflatedSize (w h bpp : ℕ) : ℕ := (w * (h * bpp + 7) % 2 ^ 32 / 8 + h) % 2 ^ 32

/-- `upng_decode`.  `one` is what `fake_malloced_space_one` holds, `inflated` is the address of
`fake_malloced_space_two`.  A pointer that the code has not set is out of bounds. -/
def upngDecode (one : List UInt8) (inflated : ℕ) (m : Bytes) (u : Upng) :
    Except Stop (Upng × Bytes) :=
  if u.error ≠ none then .ok (u, m)
  else do
    let u ← upngHeader u
    if u.error ≠ none then .ok (u, m)
    else if u.state ≠ .header then .ok (u, m)
    else
      let scanned ← settle (scanChunks u.source (u.source.length + 1) 33 0)
      match scanned with
      | .error e => .ok (u.fail e, m)
      | .ok compressedSize =>
        if compressedSize > maxPngSize then .error (.outOfBounds .compressed)
        else
          let compressed ← copyChunks u.source (u.source.length + 1) 33 []
          let size := inflatedSize u.width u.height u.bpp
          if size > maxPngSize then .error (.outOfBounds .inflated)
          else
            let result ← settle (uzInflate size (compressed ++ one.drop compressed.length)
              compressedSize)
            match result with
            | .error e => .ok (u.fail e, m)
            | .ok out =>
              match u.buffer with
              | none => .ok ({ u with size := 0, error := some .nomem }, m)
              | some buffer =>
                let processed ← settle (postProcessScanlines buffer inflated u.width u.height u.bpp
                  (overlay m inflated out.length fun i => out.getD i 0))
                match processed with
                | .error e =>
                  .ok ({ u with error := some e, buffer := none, size := 0, source := [] }, m)
                | .ok m =>
                  .ok ({ u with
                    size := (u.height * u.width * u.bpp + 7) % 2 ^ 32 / 8,
                    state := .decoded, source := [] }, m)

/-- `upng_new_from_file`, for a buffer that is not `NULL`. -/
def upngNewFromFile (file : List UInt8) : Upng where
  width := 0
  height := 0
  colorType := upngRgba
  colorDepth := 8
  format := .rgba8
  buffer := none
  size := 0
  error := none
  state := .new
  source := file

end AuroraOS
