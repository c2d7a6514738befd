/-
# Streams of blocks

The last layers of the decompressor of `gui/upng.c`: the fixed trees, a block of each type,
the loop over the blocks of a stream, and the two bytes in front of it.  For every choice that
the format leaves to the encoder, what comes out is what the stream says.
-/
import AuroraOS.InflateBlocks

namespace AuroraOS

open BitStream Lz77 Machine

/-! ## The fixed trees -/

/-- A digit of a number. -/
theorem ofDigits_digit {b : ℕ} {l : List ℕ} (hl : ∀ x ∈ l, x < b) {i v : ℕ} (h : l[i]? = some v) :
    Nat.ofDigits b l / b ^ i % b = v := by
  induction l generalizing i with
  | nil => cases h
  | cons x l ih =>
    have hx := hl x List.mem_cons_self
    rw [Nat.ofDigits_cons]
    cases i with
    | zero =>
      rw [pow_zero, Nat.div_one, Nat.add_mul_mod_self_left, Nat.mod_eq_of_lt hx]
      exact Option.some.inj h
    | succ i =>
      have hdiv : (x + b * Nat.ofDigits b l) / b = Nat.ofDigits b l := by
        rw [Nat.add_mul_div_left _ _ (by omega), Nat.div_eq_of_lt hx, Nat.zero_add]
      rw [pow_succ', ← Nat.div_div_eq_div_mul, hdiv]
      exact ih (fun y hy => hl y (List.mem_cons_of_mem x hy)) h

/-- Whether a word leads to a symbol, on a table of `size` entries that is packed into a number;
arithmetic on it is faster than going through a list. -/
def packedLeads (packed size numcodes : ℕ) : ℕ → List Bool → ℕ → Bool
  | _, [], _ => false
  | p, b :: w, n =>
    let v := packed / 1024 ^ (2 * p + b.toNat) % 1024
    2 * p + b.toNat < size &&
      (w.isEmpty && v == n && decide (n < numcodes) ||
        numcodes ≤ v && v < 2 * numcodes && packedLeads packed size numcodes (v - numcodes) w n)

theorem leads_of_packed {t : List ℕ} {numcodes n : ℕ} (ht : ∀ x ∈ t, x < 1024) {w : List Bool} :
    ∀ {p : ℕ}, packedLeads (Nat.ofDigits 1024 t) t.length numcodes p w n = true →
      Leads t numcodes p w n := by
  induction w with
  | nil => intro p h; cases h
  | cons b w ih =>
    intro p h
    rw [packedLeads, Bool.and_eq_true, Bool.or_eq_true, Bool.and_eq_true, Bool.and_eq_true,
      Bool.and_eq_true, Bool.and_eq_true, decide_eq_true_iff, decide_eq_true_iff,
      decide_eq_true_iff, decide_eq_true_iff, beq_iff_eq, List.isEmpty_iff] at h
    obtain ⟨hlt, h⟩ := h
    have hget := List.getElem?_eq_getElem hlt
    rw [ofDigits_digit ht hget] at h
    rcases h with ⟨⟨hnil, heq⟩, hn⟩ | ⟨⟨hle, hv⟩, hrest⟩
    · exact .inl ⟨hnil, by rw [hget, heq], hn⟩
    · refine .inr ⟨_, child_eq_some.mpr ⟨?_, by omega⟩, ih hrest⟩
      rw [hget, Nat.sub_add_cancel hle]

/-- **The fixed trees decode the fixed codes.** -/
theorem fixedCodetree_reads : fixedCodetree.Reads fixedCode := by
  have hsmall : ∀ x ∈ fixedDeflateCodeTree, x < 1024 := by decide +kernel
  have hall : ((List.range numDeflateCodeSymbols).all fun n =>
      packedLeads (Nat.ofDigits 1024 fixedDeflateCodeTree) fixedDeflateCodeTree.length
        numDeflateCodeSymbols 0 (fixedCode.word n) n) = true := by decide +kernel
  intro n hn
  exact leads_of_packed hsmall (List.all_eq_true.mp hall n (List.mem_range.mpr
    (Finset.mem_range.mp hn)))

theorem fixedCodetreeD_reads : fixedCodetreeD.Reads fixedCodeD := by
  have hsmall : ∀ x ∈ fixedDistanceTree, x < 1024 := by decide +kernel
  have hall : ((List.range numDistanceSymbols).all fun n =>
      packedLeads (Nat.ofDigits 1024 fixedDistanceTree) fixedDistanceTree.length
        numDistanceSymbols 0 (fixedCodeD.word n) n) = true := by decide +kernel
  intro n hn
  exact leads_of_packed hsmall (List.all_eq_true.mp hall n (List.mem_range.mpr
    (Finset.mem_range.mp hn)))

/-! ## Stored blocks -/

variable {bitstream : List UInt8} {inlength outsize bp : ℕ} {out : List UInt8}

/-- The loop stops at the next boundary. -/
theorem toBoundary_eq {n : ℕ} (hn : n < 8) (hend : (bp + n) % 8 = 0) :
    ∀ m, n ≤ m → toBoundary m bp = bp + n := by
  induction n generalizing bp with
  | zero =>
    intro m _
    cases m with
    | zero => rfl
    | succ m => rw [toBoundary, if_neg (by rw [and_seven]; simpa using hend), Nat.add_zero]
  | succ n ih =>
    intro m hm
    obtain ⟨m, rfl⟩ : ∃ k, m = k + 1 := ⟨m - 1, by omega⟩
    rw [toBoundary, if_pos (by rw [and_seven]; omega), ih (by omega) (by omega) m (by omega)]
    omega

/-- The loop copies bytes of the input. -/
theorem storedLoop_eq {data : List UInt8} : ∀ {p : ℕ} {out : List UInt8},
    (∀ k b, data[k]? = some b → bitstream[p + k]? = some b) →
    out.length + data.length ≤ outsize →
    storedLoop bitstream outsize data.length p out = .ok (out ++ data) := by
  induction data with
  | nil => intro p out _ _; rw [List.append_nil]; rfl
  | cons c data ih =>
    intro p out hdata hsize
    rw [List.length_cons] at hsize
    have hnext : ∀ k b, data[k]? = some b → bitstream[p + 1 + k]? = some b := by
      intro k b hk
      rw [Nat.add_right_comm, Nat.add_assoc]
      exact hdata (k + 1) b (List.getElem?_cons_succ.trans hk)
    have hhead : bitstream[p]? = some c := hdata 0 c rfl
    rw [List.length_cons, storedLoop, readAt_eq hhead, ok_bind,
      writeOut_eq (by omega), ok_bind, ih hnext (by
        rw [List.length_append, List.length_singleton]
        omega), List.append_assoc, List.singleton_append]

theorem expand_literals (data : List UInt8) : ∀ out : List UInt8,
    expand (data.map Token.literal) out = out ++ data := by
  induction data with
  | nil => intro out; exact (List.append_nil out).symm
  | cons c data ih =>
    intro out
    have hrest := ih (out ++ [c])
    rw [expand] at hrest ⊢
    rw [List.map_cons, List.foldl_cons]
    exact hrest.trans (List.append_assoc _ _ _)

theorem word16_value {n : ℕ} (h : n < 2 ^ 16) :
    (UInt8.ofNat n).toNat + 256 * (UInt8.ofNat (n / 256)).toNat = n := by
  rw [UInt8.toNat_ofNat', UInt8.toNat_ofNat']
  omega

/-- **A stored block is copied.** -/
theorem inflateUncompressed_eq {padding : List Bool} {data : List UInt8}
    (hpad : (bp + padding.length) % 8 = 0) (hlt : padding.length < 8) (hlen : data.length < 2 ^ 16)
    (hold : Holds bitstream bp (Block.stored padding data).body)
    (hend : bp + (Block.stored padding data).body.length ≤ 8 * (inlength - 2))
    (hin : inlength < 2 ^ 32) (hsize : out.length + data.length < outsize) :
    inflateUncompressed bitstream inlength outsize ⟨bp, out⟩ =
      .ok ⟨bp + (Block.stored padding data).body.length, out ++ data⟩ := by
  obtain ⟨p, hp⟩ : ∃ p, bp + padding.length = 8 * p := ⟨(bp + padding.length) / 8, by omega⟩
  have hword : ∀ n, (Block.word16 n).length = 2 := fun n => rfl
  have hbody : (Block.stored padding data).body.length =
      padding.length + 8 * (4 + data.length) := by
    rw [Block.body, List.length_append, length_bits, List.length_append, List.length_append, hword,
      hword]
  rw [hbody] at hend ⊢
  rw [Block.body, holds_append, hp] at hold
  have hbytes := hold.2.byte_eq
  have hboundary : toBoundary 7 bp / 8 = p := by
    rw [toBoundary_eq hlt hpad 7 (by omega), hp, Nat.mul_div_cancel_left _ (by omega)]
  have hdata : ∀ k b, data[k]? = some b → bitstream[p + 4 + k]? = some b := by
    intro k b hk
    rw [Nat.add_assoc]
    apply hbytes
    rw [List.getElem?_append_right (by simp [Block.word16]), ← hk]
    congr 1
    simp [Block.word16]
  have hcheck : ¬p ≥ sub32 inlength 4 := by
    rw [sub32_of_le (by omega) hin]
    omega
  have hfirst : bitstream[p]? = some (UInt8.ofNat data.length) := hbytes 0 _ rfl
  have hsum : data.length + (65535 - data.length) = 65535 := by omega
  rw [inflateUncompressed, hboundary, if_neg hcheck, readAt_eq hfirst, ok_bind,
    readAt_eq (hbytes 1 _ rfl), ok_bind, readAt_eq (hbytes 2 _ rfl), ok_bind,
    readAt_eq (hbytes 3 _ rfl), ok_bind, word16_value hlen, word16_value (by omega)]
  dsimp only
  rw [if_neg (by rw [hsum]; decide), if_neg (by omega), if_neg (by omega),
    storedLoop_eq hdata (by omega), ok_bind]
  congr 2
  omega

/-! ## Blocks -/

/-- A block that is read with the trees of its codes. -/
theorem inflateLoop_items {codetree codetreeD : HuffmanTree} {c cD : SymbolCode}
    {items : List Item} (hC : codetree.Reads c) (hD : codetreeD.Reads cD) (h256 : 256 ∈ c.symbols)
    (hcoded : ∀ x ∈ items, x.Coded c cD) (hold : Holds bitstream bp (itemBits c cD items))
    (hend : bp + (itemBits c cD items).length ≤ 8 * inlength) (hout : outsize < 2 ^ 32)
    (hvalid : Valid out.length (items.map Item.token))
    (hsize : out.length + ((items.map Item.token).map Token.size).sum < outsize) :
    inflateLoop bitstream inlength outsize codetree codetreeD (inflateFuel inlength) ⟨bp, out⟩ =
      .ok ⟨bp + (itemBits c cD items).length, expand (items.map Item.token) out⟩ := by
  have hfuel := length_le_itemBits hC hcoded
  exact inflateLoop_eq hC hD h256 hout (by rw [inflateFuel]; omega) hcoded hold hend hvalid hsize

/-- **A block is inflated to what it says.** -/
theorem inflateBlock_eq {b : Block} {start : ℕ} (hstart : bp = start + 3)
    (hw : b.WellFormed start) (hold : Holds bitstream bp b.body)
    (hend : bp + b.body.length ≤ 8 * (inlength - 2)) (hin : inlength < 2 ^ 32)
    (hout : outsize < 2 ^ 32) (hvalid : Valid out.length b.tokens)
    (hsize : out.length + (b.tokens.map Token.size).sum < outsize) :
    inflateBlock bitstream inlength outsize b.btype ⟨bp, out⟩ =
      .ok ⟨bp + b.body.length, expand b.tokens out⟩ := by
  cases b with
  | stored padding data =>
    obtain ⟨hpad, hlt, hlen⟩ := hw
    have hsum : ((data.map Token.literal).map Token.size).sum = data.length := by
      rw [List.map_map, List.sum_eq_card_nsmul _ 1 (by simp [Token.size])]
      simp
    have hsize' : out.length + data.length < outsize := by
      rw [← hsum]
      exact hsize
    rw [← hstart] at hpad
    have htype : (Block.stored padding data).btype = 0 := rfl
    rw [Block.tokens, expand_literals, htype, inflateBlock, if_neg (by decide), if_pos rfl]
    exact inflateUncompressed_eq hpad hlt hlen hold hend hin hsize'
  | fixed items =>
    have htype : (Block.fixed items).btype = 1 := rfl
    rw [htype, inflateBlock, if_neg (by decide), if_neg (by decide), inflateHuffman, if_pos rfl,
      ok_bind]
    dsimp only
    exact inflateLoop_items fixedCodetree_reads fixedCodetreeD_reads
      (Finset.mem_range.mpr (by decide)) hw hold (hend.trans (by omega)) hout hvalid hsize
  | dynamic h items =>
    obtain ⟨hh, hcoded⟩ := hw
    rw [Block.body] at hold hend ⊢
    rw [List.length_append] at hend ⊢
    rw [holds_append] at hold
    have hpos : 0 < (itemBits (.ofLengths h.bitlen) (.ofLengths h.bitlenD) items).length := by
      rw [itemBits, List.length_append]
      show 0 < _ + (codeOf h.bitlen 256).length
      rw [codeOf, PrefixCode.length_canonical]
      have := hh.endCode
      exact Nat.add_pos_right _ (Nat.pos_of_ne_zero this)
    obtain ⟨codetree, codetreeD, htree, hC, hD⟩ :=
      getTreeInflateDynamic_eq hh hold.1 (show _ < 8 * (inlength - 2) by omega) hin
    have htype : (Block.dynamic h items).btype = 2 := rfl
    rw [htype, inflateBlock, if_neg (by decide), if_neg (by decide), inflateHuffman,
      if_neg (by decide), htree, ok_bind, ← Nat.add_assoc]
    dsimp only
    exact inflateLoop_items hC hD hh.endCode_mem hcoded hold.2 (by omega) hout hvalid hsize

/-! ## The stream -/

theorem length_bits_pos (final : Bool) (b : Block) : 3 ≤ (b.bits final).length := by
  rw [Block.bits, List.length_cons, List.length_append, length_lsb]
  omega

/-- Every block takes its three bits. -/
theorem length_le_streamBits : ∀ blocks : List Block, blocks.length ≤ (streamBits blocks).length
  | [] => le_rfl
  | [b] => by
    have := length_bits_pos true b
    rw [streamBits, List.length_singleton]
    omega
  | b :: b' :: blocks => by
    have hfirst := length_bits_pos false b
    have hrest := length_le_streamBits (b' :: blocks)
    rw [streamBits, List.length_append, List.length_cons]
    omega

/-- One turn of the loop over the blocks. -/
theorem dataLoop_block {b : Block} {final : Bool} {fuel : ℕ} (hw : b.WellFormed bp)
    (hold : Holds bitstream bp (b.bits final))
    (hend : bp + (b.bits final).length ≤ 8 * (inlength - 2)) (hin : inlength < 2 ^ 32)
    (hout : outsize < 2 ^ 32) (hvalid : Valid out.length b.tokens)
    (hsize : out.length + (b.tokens.map Token.size).sum < outsize) :
    dataLoop bitstream inlength outsize (fuel + 1) ⟨bp, out⟩ =
      if final then .ok ⟨bp + (b.bits final).length, expand b.tokens out⟩
      else dataLoop bitstream inlength outsize fuel
        ⟨bp + (b.bits final).length, expand b.tokens out⟩ := by
  have hlen : (b.bits final).length = 3 + b.body.length := by
    rw [Block.bits, List.length_cons, List.length_append, length_lsb]
    omega
  rw [hlen] at hend ⊢
  rw [Block.bits, Holds, holds_append, length_lsb] at hold
  obtain ⟨hfinal, htype, hbody⟩ := hold
  have hor : (b.btype.testBit 0).toNat ||| ((b.btype / 2).testBit 0).toNat <<< 1 = b.btype := by
    cases b <;> rw [Block.btype] <;> decide
  have hblock := inflateBlock_eq rfl hw hbody (by omega) hin hout hvalid hsize
  rw [dataLoop, if_neg (not_ended (by show bp < _; omega)), readBit_eq hfinal, ok_bind]
  dsimp only
  rw [readBit_eq htype.1, ok_bind]
  dsimp only
  rw [readBit_eq htype.2.1, ok_bind]
  dsimp only
  rw [hor, hblock, ok_bind, ← Nat.add_assoc]
  cases final
  · rfl
  · rfl

/-- **The loop over the blocks inflates what the stream says**, and stops behind it. -/
theorem dataLoop_eq (hin : inlength < 2 ^ 32) (hout : outsize < 2 ^ 32) :
    ∀ {blocks : List Block} {bp fuel : ℕ} {out : List UInt8}, blocks ≠ [] →
      blocks.length ≤ fuel → StreamWellFormed bp blocks →
      Holds bitstream bp (streamBits blocks) →
      bp + (streamBits blocks).length ≤ 8 * (inlength - 2) →
      Valid out.length (streamTokens blocks) →
      out.length + ((streamTokens blocks).map Token.size).sum < outsize →
      dataLoop bitstream inlength outsize fuel ⟨bp, out⟩ =
        .ok ⟨bp + (streamBits blocks).length, expand (streamTokens blocks) out⟩
  | [], _, _, _, hne, _, _, _, _, _, _ => absurd rfl hne
  | [b], bp, fuel, out, _, hfuel, hw, hold, hend, hvalid, hsize => by
    obtain ⟨fuel, rfl⟩ : ∃ f, fuel = f + 1 := ⟨fuel - 1, by simp at hfuel; omega⟩
    rw [streamTokens, List.flatMap_singleton] at hvalid hsize ⊢
    exact dataLoop_block hw.1 hold hend hin hout hvalid hsize
  | b :: b' :: blocks, bp, fuel, out, _, hfuel, hw, hold, hend, hvalid, hsize => by
    obtain ⟨fuel, rfl⟩ : ∃ f, fuel = f + 1 := ⟨fuel - 1, by simp at hfuel; omega⟩
    rw [streamBits, List.length_append] at hend
    rw [streamBits, holds_append] at hold
    rw [streamTokens, List.flatMap_cons, ← streamTokens] at hvalid hsize ⊢
    rw [List.map_append, List.sum_append] at hsize
    obtain ⟨hvalid, hvalid'⟩ := valid_append.mp hvalid
    have hlen := length_expand hvalid
    rw [dataLoop_block hw.1 hold.1 (by omega) hin hout hvalid (by omega),
      if_neg Bool.false_ne_true, expand_append, streamBits, List.length_append, ← Nat.add_assoc]
    refine dataLoop_eq hin hout (List.cons_ne_nil _ _) ?_ hw.2 hold.2 (by omega) ?_ ?_
    · rw [List.length_cons] at hfuel
      omega
    · rw [hlen]
      exact hvalid'
    · rw [hlen]
      omega

/-- The loop over the blocks of a stream, from its start. -/
theorem uzInflateData_eq {inp : List UInt8} {insize : ℕ} {blocks : List Block}
    (hne : blocks ≠ []) (hin : insize < 2 ^ 32) (hout : outsize < 2 ^ 32)
    (hw : StreamWellFormed 0 blocks) (hold : Holds (inp.drop 2) 0 (streamBits blocks))
    (hend : (streamBits blocks).length ≤ 8 * (insize - 2)) (hvalid : Valid 0 (streamTokens blocks))
    (hsize : ((streamTokens blocks).map Token.size).sum < outsize) :
    uzInflateData outsize inp insize 2 =
      .ok ⟨(streamBits blocks).length, expand (streamTokens blocks) []⟩ := by
  have hfuel := length_le_streamBits blocks
  have hvalid' : Valid ([] : List UInt8).length (streamTokens blocks) := hvalid
  have hloop := dataLoop_eq hin hout hne (show _ ≤ 8 * insize + 1 by omega) hw hold (by omega)
    hvalid' (by rw [List.length_nil]; omega)
  rw [uzInflateData, hloop, Nat.zero_add]

/-- The checks of the two bytes in front of the blocks. -/
theorem zlibHeader_iff (cmf flg : UInt8) : ZlibHeader cmf flg ↔
    ¬(cmf.toNat * 256 + flg.toNat) % 31 ≠ 0 ∧
      ¬(cmf.toNat &&& 15 ≠ 8 ∨ cmf.toNat >>> 4 &&& 15 > 7) ∧ ¬flg.toNat >>> 5 &&& 1 ≠ 0 := by
  have hlt := cmf.toNat_lt
  have h15 : ∀ n, n &&& 15 = n % 16 := fun n => Nat.and_two_pow_sub_one_eq_mod n 4
  have h4 : cmf.toNat >>> 4 = cmf.toNat / 16 := Nat.shiftRight_eq_div_pow _ 4
  have h5 : flg.toNat >>> 5 = flg.toNat / 32 := Nat.shiftRight_eq_div_pow _ 5
  rw [h15, h15, Nat.and_one_is_mod, h4, h5, Nat.mod_eq_of_lt (by omega : cmf.toNat / 16 < 16)]
  constructor
  · rintro ⟨h1, h2, h3, h4⟩
    omega
  · rintro ⟨h1, h2, h3⟩
    constructor <;> omega

/-- **A stream is inflated to what it says**: the two bytes in front of it are checked, the blocks
are read, and the rest of the input does not matter. -/
theorem uzInflate_eq {cmf flg : UInt8} {rest : List UInt8} {insize : ℕ} {blocks : List Block}
    (hheader : ZlibHeader cmf flg) (hne : blocks ≠ []) (hin : insize < 2 ^ 32)
    (hout : outsize < 2 ^ 32) (hw : StreamWellFormed 0 blocks)
    (hold : Holds rest 0 (streamBits blocks))
    (hend : (streamBits blocks).length ≤ 8 * (insize - 2)) (hvalid : Valid 0 (streamTokens blocks))
    (hsize : ((streamTokens blocks).map Token.size).sum < outsize) :
    uzInflate outsize (cmf :: flg :: rest) insize =
      .ok (expand (streamTokens blocks) []) := by
  obtain ⟨hcheck, hmethod, hdict⟩ := (zlibHeader_iff cmf flg).mp hheader
  have hpos := List.length_pos_iff.mpr hne
  have hbits := length_le_streamBits blocks
  rw [uzInflate, if_neg (by omega), readAt_eq rfl, ok_bind, readAt_eq rfl, ok_bind]
  have hdata := uzInflateData_eq hne hin hout hw
    (show Holds ((cmf :: flg :: rest).drop 2) 0 _ from hold) hend hvalid hsize
  rw [if_neg hcheck, if_neg hmethod, if_neg hdict, hdata, ok_bind]

/-- Compressed data is inflated to the data, whatever stands behind it in the buffer. -/
theorem uzInflate_compressed {compressed data rest : List UInt8} (h : Compresses compressed data)
    (hin : compressed.length < 2 ^ 32) (hout : outsize < 2 ^ 32) (hsize : data.length < outsize) :
    uzInflate outsize (compressed ++ rest) compressed.length = .ok data := by
  obtain ⟨cmf, flg, blocks, checksum, hheader, hne, hw, hvalid, rfl, rfl⟩ := h
  have hlen : (expand (streamTokens blocks) ([] : List UInt8)).length =
      0 + ((streamTokens blocks).map Token.size).sum := length_expand hvalid
  have hold : Holds (pack (streamBits blocks) ++ checksum ++ rest) 0 (streamBits blocks) := by
    have hpack : Holds ([] ++ pack (streamBits blocks) ++ (checksum ++ rest)) 0
        (streamBits blocks) := holds_pack_append
    rwa [List.nil_append, ← List.append_assoc] at hpack
  have hbits : (streamBits blocks).length ≤
      8 * ((cmf :: flg :: (pack (streamBits blocks) ++ checksum)).length - 2) := by
    rw [List.length_cons, List.length_cons, List.length_append, length_pack]
    omega
  exact uzInflate_eq hheader hne hin hout hw hold hbits hvalid (by omega)

end AuroraOS
