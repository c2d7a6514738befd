/-
# PNG files

What a PNG file consists of: a signature, the header chunk, other chunks, and the chunk that
ends the file.  The two scans of `gui/upng.c` over the chunks are compared with it, and the
second scan, which checks nothing, turns out to need no check.
-/
import AuroraOS.Ensures
import AuroraOS.Upng

namespace AuroraOS

open Machine

/-! ## Words -/

theorem makeDword_eq (a b c d : UInt8) :
    makeDword a b c d = 2 ^ 8 * (2 ^ 8 * (2 ^ 8 * a.toNat + b.toNat) + c.toNat) + d.toNat := by
  have hb := b.toNat_lt
  have hc := c.toNat_lt
  have hd := d.toNat_lt
  have h1 : a.toNat <<< 24 ||| b.toNat <<< 16 = 2 ^ 16 * (2 ^ 8 * a.toNat + b.toNat) := by
    have ha : a.toNat <<< 24 = 2 ^ 24 * a.toNat := by rw [Nat.shiftLeft_eq, Nat.mul_comm]
    rw [ha, Nat.shiftLeft_eq, ← Nat.two_pow_add_eq_or_of_lt (by omega)]
    omega
  have h2 : 2 ^ 16 * (2 ^ 8 * a.toNat + b.toNat) ||| c.toNat <<< 8 =
      2 ^ 8 * (2 ^ 8 * (2 ^ 8 * a.toNat + b.toNat) + c.toNat) := by
    rw [Nat.shiftLeft_eq, ← Nat.two_pow_add_eq_or_of_lt (by omega)]
    omega
  rw [makeDword, h1, h2, ← Nat.two_pow_add_eq_or_of_lt hd]

/-- A number as four bytes, highest byte first. -/
def dword (n : ℕ) : List UInt8 :=
  [UInt8.ofNat (n / 2 ^ 24), UInt8.ofNat (n / 2 ^ 16), UInt8.ofNat (n / 2 ^ 8), UInt8.ofNat n]

@[simp] theorem length_dword (n : ℕ) : (dword n).length = 4 := rfl

theorem makeDword_lt (a b c d : UInt8) : makeDword a b c d < 2 ^ 32 := by
  have ha := a.toNat_lt
  have hb := b.toNat_lt
  have hc := c.toNat_lt
  have hd := d.toNat_lt
  rw [makeDword_eq]
  omega

theorem makeDword_dword {n : ℕ} (h : n < 2 ^ 32) :
    makeDword (UInt8.ofNat (n / 2 ^ 24)) (UInt8.ofNat (n / 2 ^ 16)) (UInt8.ofNat (n / 2 ^ 8))
      (UInt8.ofNat n) = n := by
  rw [makeDword_eq, UInt8.toNat_ofNat', UInt8.toNat_ofNat', UInt8.toNat_ofNat',
    UInt8.toNat_ofNat']
  omega

section Words

variable {source : List UInt8} {p n : ℕ}

/-- Some bytes stand at a position of the source. -/
def BytesAt (source : List UInt8) (p : ℕ) (bytes : List UInt8) : Prop :=
  ∃ before after, source = before ++ bytes ++ after ∧ before.length = p

theorem BytesAt.append_iff {as bs : List UInt8} : BytesAt source p (as ++ bs) ↔
    BytesAt source p as ∧ BytesAt source (p + as.length) bs := by
  constructor
  · rintro ⟨before, after, rfl, rfl⟩
    refine ⟨⟨before, bs ++ after, by simp, rfl⟩, ⟨before ++ as, after, by simp, by simp⟩⟩
  · rintro ⟨⟨before, after, rfl, rfl⟩, ⟨before', after', heq, hlen⟩⟩
    refine ⟨before, after', ?_, rfl⟩
    rw [← List.length_append] at hlen
    have hsplit := List.append_inj (heq.trans (List.append_assoc _ _ _)) hlen.symm
    rw [heq, ← hsplit.1]
    simp

theorem BytesAt.length_le {bytes : List UInt8} (h : BytesAt source p bytes) :
    p + bytes.length ≤ source.length := by
  obtain ⟨before, after, rfl, rfl⟩ := h
  rw [List.length_append, List.length_append]
  omega

theorem BytesAt.getElem? {bytes : List UInt8} (h : BytesAt source p bytes) {i : ℕ} {b : UInt8}
    (hb : bytes[i]? = some b) : source[p + i]? = some b := by
  obtain ⟨before, after, rfl, rfl⟩ := h
  have hi : i < bytes.length := (List.getElem?_eq_some_iff.mp hb).1
  rw [List.append_assoc, List.getElem?_append_right (Nat.le_add_right _ _),
    Nat.add_sub_cancel_left, List.getElem?_append_left hi, hb]

theorem dwordAt_eq (h : BytesAt source p (dword n)) (hn : n < 2 ^ 32) :
    dwordAt source p = .ok n := by
  have h0 : source[p]? = some (UInt8.ofNat (n / 2 ^ 24)) := h.getElem? (i := 0) rfl
  rw [dwordAt, readAt_eq h0, ok_bind, readAt_eq (h.getElem? (i := 1) rfl), ok_bind,
    readAt_eq (h.getElem? (i := 2) rfl), ok_bind, readAt_eq (h.getElem? (i := 3) rfl), ok_bind,
    makeDword_dword hn]

theorem bytesAt_eq {data : List UInt8} (h : BytesAt source p data) :
    bytesAt source p data.length = .ok data := by
  rw [bytesAt, if_pos h.length_le]
  obtain ⟨before, after, rfl, rfl⟩ := h
  rw [List.append_assoc, List.drop_left, List.take_left]

/-- A word inside of the source. -/
theorem dwordAt_of_le (h : p + 4 ≤ source.length) :
    ∃ n < 2 ^ 32, dwordAt source p = .ok n := by
  refine ⟨_, makeDword_lt source[p] source[p + 1] source[p + 2] source[p + 3], ?_⟩
  rw [dwordAt, readAt_of_lt, ok_bind, readAt_of_lt, ok_bind, readAt_of_lt, ok_bind,
    readAt_of_lt, ok_bind]

end Words

/-! ## Chunks -/

/-- A chunk: its type, its data, and a check value that nothing reads. -/
structure Chunk where
  type : ℕ
  data : List UInt8
  crc : ℕ

namespace Chunk

variable (c : Chunk)

/-- The bytes of a chunk. -/
def bytes : List UInt8 := dword c.data.length ++ dword c.type ++ c.data ++ dword c.crc

/-- What a chunk adds to the compressed data. -/
def payload : List UInt8 := if c.type = chunkIdat then c.data else []

/-- A chunk that the decoder passes: one with data of the image, or one that it may ignore. -/
structure Passed : Prop where
  type_lt : c.type < 2 ^ 32
  length_le : c.data.length ≤ 2147483647
  known : c.type = chunkIdat ∨ c.type ≠ chunkIend ∧ c.type.testBit 29 = true

/-- The chunk that ends a file. -/
structure Final : Prop where
  type_eq : c.type = chunkIend
  length_le : c.data.length ≤ 2147483647

@[simp] theorem length_bytes : c.bytes.length = c.data.length + 12 := by
  rw [bytes, List.length_append, List.length_append, List.length_append, length_dword,
    length_dword, length_dword]
  omega

end Chunk

/-- What may stand behind the chunks of a file: nothing, or the final chunk and anything. -/
def Ends (ending : List UInt8) : Prop :=
  ending = [] ∨ ∃ (c : Chunk) (rest : List UInt8), c.Final ∧ ending = c.bytes ++ rest

section Scans

variable {source : List UInt8} {p : ℕ}

/-- What the scans read of a chunk. -/
structure ChunkAt (source : List UInt8) (p : ℕ) (c : Chunk) : Prop where
  inside : p + (c.data.length + 12) ≤ source.length
  length : dwordAt source p = .ok c.data.length
  type : dwordAt source (p + 4) = .ok c.type
  first : source[p + 4]? = some (UInt8.ofNat (c.type / 2 ^ 24))
  data : bytesAt source (p + 8) c.data.length = .ok c.data

theorem BytesAt.chunkAt {c : Chunk} (h : BytesAt source p c.bytes) (htype : c.type < 2 ^ 32)
    (hlen : c.data.length ≤ 2147483647) : ChunkAt source p c := by
  have hinside := h.length_le
  rw [Chunk.length_bytes] at hinside
  rw [Chunk.bytes, BytesAt.append_iff, BytesAt.append_iff, BytesAt.append_iff] at h
  obtain ⟨⟨⟨h1, h2⟩, h3⟩, _⟩ := h
  exact ⟨hinside, dwordAt_eq h1 (by omega), dwordAt_eq h2 htype, h2.getElem? (i := 0) rfl,
    bytesAt_eq h3⟩

/-- Bit 5 of the first byte of a type. -/
theorem first_and (n : ℕ) : UInt8.ofNat (n / 2 ^ 24) &&& 32 = 0 ↔ n.testBit 29 = false := by
  have hbit : (UInt8.ofNat (n / 2 ^ 24) &&& 32).toNat = (n.testBit 29).toNat * 2 ^ 5 := by
    rw [UInt8.toNat_and, UInt8.toNat_ofNat']
    show n / 2 ^ 24 % 2 ^ 8 &&& 2 ^ 5 = _
    rw [Nat.and_two_pow, Nat.testBit_mod_two_pow, Nat.testBit_div_two_pow]
    rfl
  rw [← UInt8.toNat_inj, hbit]
  cases n.testBit 29
  · exact ⟨fun _ => rfl, fun _ => rfl⟩
  · exact ⟨fun h => absurd h (by decide), fun h => absurd h (by decide)⟩

/-- The scan passes a chunk. -/
theorem scanChunks_passed {c : Chunk} {fuel n : ℕ} (h : ChunkAt source p c) (hc : c.Passed)
    (hsource : source.length ≤ 2 ^ 31) (hn : n + c.payload.length < 2 ^ 32) :
    scanChunks source (fuel + 1) p n =
      scanChunks source fuel (p + (c.data.length + 12)) (n + c.payload.length) := by
  have hinside := h.inside
  have hlen := hc.length_le
  rw [scanChunks, if_pos (by omega), if_neg (by omega), h.length, ok_bind, if_neg (by omega),
    if_neg (by omega), h.type, ok_bind]
  by_cases htype : c.type = chunkIdat
  · rw [Chunk.payload, if_pos htype] at hn ⊢
    rw [if_pos htype, Nat.mod_eq_of_lt hn]
  · obtain ⟨hend, hbit⟩ := hc.known.resolve_left htype
    have hfirst : ¬UInt8.ofNat (c.type / 2 ^ 24) &&& 32 = 0 := by
      rw [first_and, hbit]
      decide
    rw [Chunk.payload, if_neg htype, if_neg htype, if_neg hend, readAt_eq h.first, ok_bind,
      if_neg hfirst]
    rfl

/-- The copying scan passes a chunk, too. -/
theorem copyChunks_passed {c : Chunk} {fuel : ℕ} {compressed : List UInt8}
    (h : ChunkAt source p c) (hc : c.Passed)
    (hroom : compressed.length + c.payload.length ≤ maxPngSize) :
    copyChunks source (fuel + 1) p compressed =
      copyChunks source fuel (p + (c.data.length + 12)) (compressed ++ c.payload) := by
  have hinside := h.inside
  rw [copyChunks, if_pos (by omega), h.length, ok_bind, h.type, ok_bind]
  by_cases htype : c.type = chunkIdat
  · rw [Chunk.payload, if_pos htype] at hroom ⊢
    rw [if_pos htype, h.data, ok_bind, if_neg (Nat.not_lt.mpr hroom)]
  · obtain ⟨hend, _⟩ := hc.known.resolve_left htype
    rw [Chunk.payload, if_neg htype, if_neg htype, if_neg hend, List.append_nil]

/-- Both scans stop behind the last chunk. -/
theorem scans_end {ending : List UInt8} (hend : Ends ending) (hat : BytesAt source p ending)
    (hlast : p + ending.length = source.length) (hsource : source.length ≤ 2 ^ 31) (fuel n : ℕ)
    (compressed : List UInt8) : scanChunks source (fuel + 1) p n = .ok n ∧
      copyChunks source (fuel + 1) p compressed = .ok compressed := by
  rcases hend with rfl | ⟨c, rest, hfinal, rfl⟩
  · rw [List.length_nil, Nat.add_zero] at hlast
    constructor
    · rw [scanChunks, if_neg (by omega)]
    · rw [copyChunks, if_neg (by omega)]
  · have htype : c.type < 2 ^ 32 := by
      rw [hfinal.type_eq]
      decide
    have h := (BytesAt.append_iff.mp hat).1.chunkAt htype hfinal.length_le
    have hinside := h.inside
    have hlen := hfinal.length_le
    have hidat : chunkIend ≠ chunkIdat := by decide
    constructor
    · rw [scanChunks, if_pos (by omega), if_neg (by omega), h.length, ok_bind, if_neg (by omega),
        if_neg (by omega), h.type, ok_bind, hfinal.type_eq, if_neg hidat, if_pos rfl]
    · rw [copyChunks, if_pos (by omega), h.length, ok_bind, h.type, ok_bind, hfinal.type_eq,
        if_neg hidat, if_pos rfl]

/-- The data of some chunks. -/
def payloads (chunks : List Chunk) : List UInt8 := chunks.flatMap Chunk.payload

/-- **The first scan adds up the compressed data, the second one collects it.** -/
theorem scans_eq (hsource : source.length ≤ 2 ^ 31) {ending : List UInt8} (hend : Ends ending) :
    ∀ {chunks : List Chunk} {p n fuel : ℕ} {compressed : List UInt8}, (∀ c ∈ chunks, c.Passed) →
      BytesAt source p (chunks.flatMap Chunk.bytes ++ ending) →
      p + (chunks.flatMap Chunk.bytes ++ ending).length = source.length →
      chunks.length < fuel → n + (payloads chunks).length < 2 ^ 32 →
      (scanChunks source fuel p n = .ok (n + (payloads chunks).length)) ∧
      (compressed.length + (payloads chunks).length ≤ maxPngSize →
        copyChunks source fuel p compressed = .ok (compressed ++ payloads chunks)) := by
  intro chunks
  induction chunks with
  | nil =>
    intro p n fuel compressed _ hat hlast hfuel _
    obtain ⟨fuel, rfl⟩ : ∃ f, fuel = f + 1 := ⟨fuel - 1, by simp at hfuel; omega⟩
    have hscans := scans_end hend hat hlast hsource fuel n compressed
    rw [payloads, List.flatMap_nil, List.append_nil]
    exact ⟨hscans.1, fun _ => hscans.2⟩
  | cons c chunks ih =>
    intro p n fuel compressed hpassed hat hlast hfuel hn
    obtain ⟨fuel, rfl⟩ : ∃ f, fuel = f + 1 := ⟨fuel - 1, by simp at hfuel; omega⟩
    have hc := hpassed c List.mem_cons_self
    have hsplit : payloads (c :: chunks) = c.payload ++ payloads chunks := List.flatMap_cons
    rw [List.flatMap_cons, List.append_assoc] at hat hlast
    rw [List.length_append] at hlast
    rw [BytesAt.append_iff] at hat
    have h := hat.1.chunkAt hc.type_lt hc.length_le
    rw [Chunk.length_bytes] at hat hlast
    rw [List.length_cons] at hfuel
    rw [hsplit, List.length_append] at hn ⊢
    have hnext := @ih (p + (c.data.length + 12)) (n + c.payload.length) fuel
      (compressed ++ c.payload) (fun d hd => hpassed d (List.mem_cons_of_mem c hd)) hat.2
      (by omega) (by omega) (by omega)
    constructor
    · rw [scanChunks_passed h hc hsource (by omega), hnext.1, Nat.add_assoc]
    · intro hroom
      have hcopy := hnext.2 (by rw [List.length_append]; omega)
      rw [copyChunks_passed h hc (by omega), hcopy, List.append_assoc]

/-- The position and the size of a scan: what is behind the header and the chunks so far. -/
def ScanInv (source : List UInt8) (p n : ℕ) : Prop :=
  33 ≤ p ∧ (n = 0 ∨ n + 45 ≤ p ∧ p ≤ source.length)

/-- The result `r` of the first scan from size `n` on, and what the second scan makes of it. -/
def Scanned (source : List UInt8) (fuel p n r : ℕ) : Prop :=
  (r = 0 ∨ r + 45 ≤ source.length) ∧ ∃ data : List UInt8, r = n + data.length ∧
    ∀ compressed : List UInt8, compressed.length + data.length ≤ maxPngSize →
      copyChunks source fuel p compressed = .ok (compressed ++ data)

/-- **The scans on arbitrary files**: the first one stops, reads inside of the source, and gives
up with an error of the decoder only; the second one, which checks nothing, stays inside of the
source too, and copies as many bytes as the first one has counted. -/
theorem scans_safe (hsource : source.length ≤ 2 ^ 31) : ∀ {fuel p n : ℕ},
    source.length - p < fuel → ScanInv source p n →
    Ensures (fun stop => ∃ e, stop = .error e) (Scanned source fuel p n)
      (scanChunks source fuel p n) := by
  intro fuel
  induction fuel with
  | zero => intro p n hfuel _; exact absurd hfuel (Nat.not_lt_zero _)
  | succ fuel ih =>
    intro p n hfuel hinv
    obtain ⟨h33, hn45⟩ := hinv
    have hstay : (∀ compressed, copyChunks source (fuel + 1) p compressed = .ok compressed) →
        n = 0 ∨ n + 45 ≤ source.length → Scanned source (fuel + 1) p n n := fun hcopy hn =>
      ⟨hn, [], rfl, fun compressed _ => by rw [hcopy, List.append_nil]⟩
    have hbound : n = 0 ∨ n + 45 ≤ source.length := hn45.imp_right fun h => by omega
    rw [scanChunks]
    refine Ensures.ite (fun hp => ?_) fun hp => .ok (hstay (fun compressed => ?_) hbound)
    · refine Ensures.ite (fun _ => .error ⟨_, rfl⟩) fun h12 => ?_
      obtain ⟨length, hlt, hlength⟩ := @dwordAt_of_le source p (by omega)
      rw [hlength, ok_bind]
      refine Ensures.ite (fun _ => .error ⟨_, rfl⟩) fun hmax => ?_
      refine Ensures.ite (fun _ => .error ⟨_, rfl⟩) fun hinside => ?_
      obtain ⟨type, _, htype⟩ := @dwordAt_of_le source (p + 4) (by omega)
      rw [htype, ok_bind]
      have hcopy : ∀ compressed, copyChunks source (fuel + 1) p compressed =
          if type = chunkIdat then do
            let data ← bytesAt source (p + 8) length
            if compressed.length + length > maxPngSize then .error (.outOfBounds .compressed)
            else copyChunks source fuel (p + (length + 12)) (compressed ++ data)
          else if type = chunkIend then .ok compressed
          else copyChunks source fuel (p + (length + 12)) compressed := by
        intro compressed
        rw [copyChunks, if_pos hp, hlength, ok_bind, htype, ok_bind]
      have hn : n + length < 2 ^ 32 := by omega
      refine Ensures.ite (fun hidat => ?_) fun hidat =>
        Ensures.ite (fun hiend => ?_) fun hiend => ?_
      · -- the data of the chunk comes in front of the data of the chunks behind it
        rw [Nat.mod_eq_of_lt hn]
        refine (ih (by omega) ⟨by omega, .inr (by omega)⟩).mono fun r hr => ?_
        obtain ⟨hend, data, hdata, hrest⟩ := hr
        have hbytes : bytesAt source (p + 8) length =
            .ok ((source.drop (p + 8)).take length) := if_pos (by omega)
        have hlen : ((source.drop (p + 8)).take length).length = length := by
          rw [List.length_take, List.length_drop]
          omega
        refine ⟨hend, (source.drop (p + 8)).take length ++ data, ?_, fun compressed hroom => ?_⟩
        · rw [List.length_append, hlen, hdata, Nat.add_assoc]
        · rw [List.length_append, hlen] at hroom
          rw [hcopy, if_pos hidat, hbytes, ok_bind, if_neg (by omega), hrest _ (by
            rw [List.length_append, hlen]
            omega), List.append_assoc]
      · exact .ok (hstay (fun compressed => by rw [hcopy, if_neg hidat, if_pos hiend]) hbound)
      · rw [readAt_of_lt (by omega : p + 4 < source.length), ok_bind]
        refine Ensures.ite (fun _ => .error ⟨_, rfl⟩) fun _ => ?_
        refine (ih (by omega) ⟨by omega, hn45.imp_right (by omega)⟩).mono fun r hr => ?_
        obtain ⟨hend, data, hdata, hrest⟩ := hr
        refine ⟨hend, data, hdata, fun compressed hroom => ?_⟩
        rw [hcopy, if_neg hidat, if_neg hiend, hrest compressed hroom]
    · rw [copyChunks, if_neg hp]

end Scans

end AuroraOS
