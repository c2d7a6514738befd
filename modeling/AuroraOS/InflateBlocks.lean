/-
# What is inflated

The decompressor of `gui/upng.c` recovers what a stream says, whatever tokens, codes and
blocks the encoder chose: an item of a block, the code lengths in front of a block, a block,
and a stream of blocks.
-/
import AuroraOS.Deflate

namespace AuroraOS

open BitStream Lz77 Machine

variable {bitstream : List UInt8} {inlength outsize bp : ℕ}

/-! ## Copies -/

theorem writeOut_eq {out : List UInt8} (h : out.length < outsize) (c : UInt8) :
    writeOut outsize out c = .ok (out ++ [c]) := if_pos h

/-- **The loop copies from the window before its start what a copy one by one takes.** -/
theorem copyLoop_eq {start distance : ℕ} (hpos : 0 < distance) (hle : distance ≤ start)
    (hstart : start < 2 ^ 32) : ∀ {n k : ℕ} {out : List UInt8}, out.length = start + k →
      Repeats start distance out → out.length + n ≤ outsize →
      copyLoop outsize start distance n (start - distance + k % distance) out =
        .ok (copyBack distance n out) := by
  intro n
  induction n with
  | zero => intro k out _ _ _; rfl
  | succ n ih =>
    intro k out hlen hrep hsize
    have hget : out[out.length - distance]? = some out[out.length - distance] :=
      List.getElem?_eq_getElem (by omega)
    have hwindow : out[start - distance + k % distance]? = some out[out.length - distance] := by
      rw [← hrep.window hle (by omega), ← hlen, hget]
    have hnext : (if start - distance + k % distance + 1 ≥ start then sub32 start distance
        else start - distance + k % distance + 1) = start - distance + (k + 1) % distance := by
      have hmod := Nat.mod_lt k hpos
      rw [sub32_of_le hle hstart, ← Nat.mod_add_mod]
      by_cases hend : k % distance + 1 = distance
      · rw [hend, Nat.mod_self, if_pos (by omega), Nat.add_zero]
      · rw [Nat.mod_eq_of_lt (by omega : k % distance + 1 < distance), if_neg (by omega)]
        omega
    have hlen' : (out ++ [out[out.length - distance]]).length = start + (k + 1) := by
      rw [List.length_append, List.length_singleton]
      omega
    rw [copyLoop, readAt_eq hwindow, ok_bind, writeOut_eq (by omega), ok_bind, hnext,
      ih hlen' (hrep.append hpos (by omega) hget) (by omega), copyBack, hget, Option.toList_some]

/-! ## Items -/

/-- A word that ends in the input is decoded. -/
theorem HuffmanTree.Reads.decodeSymbol {tree : HuffmanTree} {c : SymbolCode} {n : ℕ}
    (h : tree.Reads c) (hn : n ∈ c.symbols) (hold : Holds bitstream bp (c.word n))
    (hend : bp + (c.word n).length ≤ 8 * inlength) :
    AuroraOS.decodeSymbol tree bitstream inlength bp = .ok (n, bp + (c.word n).length) :=
  HuffmanTree.Decodes.decodeSymbol h hn hold (by omega)

/-- A word of a code that is read is not empty. -/
theorem HuffmanTree.Reads.length_pos {tree : HuffmanTree} {c : SymbolCode} {n : ℕ}
    (h : tree.Reads c) (hn : n ∈ c.symbols) : 0 < (c.word n).length := by
  have hleads := h n hn
  rcases hw : c.word n with _ | ⟨b, w⟩
  · rw [hw] at hleads
    exact hleads.elim
  · exact Nat.succ_pos _

/-- The bit pointer stands in front of the end of the input. -/
theorem not_ended {n : ℕ} (h : n < 8 * inlength) : ¬n >>> 3 ≥ inlength := by
  rw [shiftRight_three]
  omega

/-- The extra bits of a number are read as its offset. -/
theorem Extended.readBits {base extra : List ℕ} (x : Extended base extra)
    (hold : Holds bitstream bp x.bits) :
    AuroraOS.readBits bitstream bp (getElem extra x.index x.index_lt_extra) =
      .ok (x.offset, bp + x.bits.length) := by
  rw [readBits_lsb x.offset_lt hold, Extended.bits, length_lsb]

theorem distance_pos (d : Extended distanceBase distanceExtra) : 0 < d.value := by
  have hall : ∀ b ∈ distanceBase, 0 < b := by decide
  have hbase := hall _ (List.getElem_mem d.index_lt_base)
  rw [Extended.value]
  omega

variable {c cD : SymbolCode} {codetree codetreeD : HuffmanTree} {out : List UInt8}

/-- A copy in the stream. -/
theorem inflateMatch_eq (hD : codetreeD.Reads cD) {l : Extended lengthBase lengthExtra}
    {d : Extended distanceBase distanceExtra} (hd : d.index ∈ cD.symbols)
    (hold : Holds bitstream bp (l.bits ++ cD.word d.index ++ d.bits))
    (hend : bp + (l.bits ++ cD.word d.index ++ d.bits).length < 8 * inlength)
    (hreach : d.value ≤ out.length) (hsize : out.length + l.value < outsize)
    (hout : outsize < 2 ^ 32) :
    inflateMatch bitstream inlength outsize codetreeD (257 + l.index) ⟨bp, out⟩ =
      .ok ⟨bp + (l.bits ++ cD.word d.index ++ d.bits).length,
        (Token.copy l.value d.value).apply out⟩ := by
  rw [List.length_append, List.length_append] at hend ⊢
  rw [holds_append, holds_append, List.length_append] at hold
  obtain ⟨⟨hl, hword⟩, hdist⟩ := hold
  rw [← Nat.add_assoc] at hdist
  have hpos := hD.length_pos hd
  have hindex : ¬d.index > 29 := by
    have := d.index_lt_base
    have hlen : distanceBase.length = 30 := rfl
    omega
  have hcopy : copyLoop outsize out.length d.value l.value (sub32 out.length d.value) out =
      .ok (copyBack d.value l.value out) := by
    rw [sub32_of_le hreach (by omega)]
    exact copyLoop_eq (k := 0) (distance_pos d) hreach (by omega) rfl (repeats_length out)
      (by omega)
  rw [inflateMatch, Nat.add_sub_cancel_left, readAt_of_lt l.index_lt_base, ok_bind,
    readAt_of_lt l.index_lt_extra, ok_bind, if_neg (not_ended (by show bp < _; omega)),
    l.readBits hl, ok_bind]
  dsimp only
  rw [hD.decodeSymbol hd hword (by omega), ok_bind]
  dsimp only
  rw [if_neg hindex, readAt_of_lt d.index_lt_base, ok_bind, readAt_of_lt d.index_lt_extra,
    ok_bind, if_neg (not_ended (by omega)), d.readBits hdist, ok_bind]
  dsimp only
  rw [if_neg (by show ¬out.length + l.value ≥ outsize; omega)]
  show (copyLoop outsize out.length d.value l.value (sub32 out.length d.value) out >>= _) = _
  rw [hcopy, ok_bind, Token.apply, Nat.add_assoc, Nat.add_assoc, Nat.add_assoc]

/-- **The items of a block are decoded one after the other**, until the symbol that ends it. -/
theorem inflateLoop_eq (hC : codetree.Reads c) (hD : codetreeD.Reads cD) (h256 : 256 ∈ c.symbols)
    (hout : outsize < 2 ^ 32) : ∀ {items : List Item} {bp fuel : ℕ} {out : List UInt8},
      items.length < fuel → (∀ x ∈ items, x.Coded c cD) →
      Holds bitstream bp (itemBits c cD items) →
      bp + (itemBits c cD items).length ≤ 8 * inlength →
      Valid out.length (items.map Item.token) →
      out.length + ((items.map Item.token).map Token.size).sum < outsize →
      inflateLoop bitstream inlength outsize codetree codetreeD fuel ⟨bp, out⟩ =
        .ok ⟨bp + (itemBits c cD items).length, expand (items.map Item.token) out⟩ := by
  intro items
  induction items with
  | nil =>
    intro bp fuel out hfuel _ hold hend _ _
    obtain ⟨fuel, rfl⟩ : ∃ f, fuel = f + 1 := ⟨fuel - 1, by simp at hfuel; omega⟩
    have hdecode := hC.decodeSymbol h256 hold hend
    rw [inflateLoop, hdecode, ok_bind]
    rfl
  | cons x items ih =>
    intro bp fuel out hfuel hcoded hold hend hvalid hsize
    obtain ⟨fuel, rfl⟩ : ∃ f, fuel = f + 1 := ⟨fuel - 1, by simp at hfuel; omega⟩
    have hsplit : itemBits c cD (x :: items) = x.bits c cD ++ itemBits c cD items := by
      rw [itemBits, List.flatMap_cons, List.append_assoc, itemBits]
    have htail : 0 < (itemBits c cD items).length := by
      have := hC.length_pos h256
      rw [itemBits, List.length_append]
      omega
    rw [hsplit] at hold hend ⊢
    rw [holds_append] at hold
    rw [List.length_append] at hend ⊢
    rw [List.map_cons, List.map_cons, List.sum_cons] at hsize
    rw [List.length_cons] at hfuel
    have hx := hcoded x List.mem_cons_self
    have hrest := fun y hy => hcoded y (List.mem_cons_of_mem x hy)
    have happly := Token.length_apply hvalid.1
    have hnext := @ih (bp + (x.bits c cD).length) fuel (x.token.apply out)
      (by omega) hrest hold.2 (by omega) (by rw [happly]; exact hvalid.2) (by rw [happly]; omega)
    rw [List.map_cons, expand, List.foldl_cons, ← expand, ← Nat.add_assoc, ← hnext, inflateLoop]
    cases x with
    | literal a =>
      have hdecode : decodeSymbol codetree bitstream inlength bp =
          .ok (a.toNat, bp + (c.word a.toNat).length) := hC.decodeSymbol hx hold.1 (by
        show bp + (Item.bits c cD (.literal a)).length ≤ _
        omega)
      have ha := a.toNat_lt
      have hfull : ¬out.length ≥ outsize := by
        have : (Item.literal a).token.size = 1 := rfl
        omega
      rw [hdecode, ok_bind]
      dsimp only
      rw [if_neg (by omega), if_pos (by omega), if_neg hfull, writeOut_eq (by omega), ok_bind,
        UInt8.ofNat_toNat]
      rfl
    | copy l d =>
      have hbits : Item.bits c cD (.copy l d) =
          c.word (257 + l.index) ++ (l.bits ++ cD.word d.index ++ d.bits) := by
        rw [Item.bits, List.append_assoc, List.append_assoc, List.append_assoc]
      rw [hbits] at hold hend ⊢
      rw [List.length_append] at hend ⊢
      rw [holds_append] at hold
      have hdecode : decodeSymbol codetree bitstream inlength bp =
          .ok (257 + l.index, bp + (c.word (257 + l.index)).length) :=
        hC.decodeSymbol hx.1 hold.1.1 (by omega)
      have hindex : l.index < 29 := l.index_lt_base
      have hsize' : out.length + l.value < outsize := by
        have : (Item.copy l d).token.size = l.value := rfl
        omega
      rw [hdecode, ok_bind]
      dsimp only
      rw [if_neg (by omega), if_neg (by omega), if_pos (by omega),
        inflateMatch_eq hD hx.2 hold.1.2 (by omega) hvalid.1.2 hsize' hout, ok_bind, Nat.add_assoc]
      rfl

/-- Every item takes a bit. -/
theorem length_le_itemBits (hC : codetree.Reads c) {items : List Item}
    (hcoded : ∀ x ∈ items, x.Coded c cD) : items.length ≤ (itemBits c cD items).length := by
  rw [itemBits, List.length_append]
  suffices h : items.length ≤ (items.flatMap (Item.bits c cD)).length by omega
  induction items with
  | nil => exact Nat.zero_le _
  | cons x items ih =>
    have hrest := ih fun y hy => hcoded y (List.mem_cons_of_mem x hy)
    have hx : 0 < (x.bits c cD).length := by
      have hcode := hcoded x List.mem_cons_self
      cases x with
      | literal a => exact hC.length_pos hcode
      | copy l d =>
        have := hC.length_pos hcode.1
        simp only [Item.bits, List.length_append]
        omega
    rw [List.flatMap_cons, List.length_append, List.length_cons]
    omega

/-! ## Code lengths -/

/-- The state of the loop when it has read some lengths. -/
structure LengthsStored (hlit hdist : ℕ) (lens : List ℕ) (s : LengthsState) : Prop where
  i : s.i = lens.length
  bitlen : s.bitlen = paddedLengths numDeflateCodeSymbols (lens.take hlit)
  bitlenD : s.bitlenD = paddedLengths numDistanceSymbols (lens.drop hlit)

/-- An entry behind the lengths of an array. -/
theorem paddedLengths_set {n v : ℕ} {lens : List ℕ} (h : lens.length < n) :
    (paddedLengths n lens).set lens.length v = paddedLengths n (lens ++ [v]) := by
  obtain ⟨m, hm⟩ : ∃ m, n - lens.length = m + 1 := ⟨n - lens.length - 1, by omega⟩
  have hm' : n - (lens ++ [v]).length = m := by
    rw [List.length_append, List.length_singleton]
    omega
  rw [paddedLengths, paddedLengths, hm, hm', List.set_append_right _ _ le_rfl, Nat.sub_self,
    List.replicate_succ, List.set_cons_zero, List.append_assoc, List.singleton_append]

theorem length_paddedLengths {n : ℕ} {lens : List ℕ} (h : lens.length ≤ n) :
    (paddedLengths n lens).length = n := by
  rw [paddedLengths, List.length_append, List.length_replicate]
  omega

theorem getElem?_paddedLengths {n i : ℕ} {lens : List ℕ} (h : i < lens.length) :
    (paddedLengths n lens)[i]? = lens[i]? := List.getElem?_append_left h

namespace LengthsStored

variable {hlit hdist : ℕ} {lens : List ℕ} {s : LengthsState}

/-- One more length. -/
theorem putLength (h : LengthsStored hlit hdist lens s) (hl : hlit ≤ numDeflateCodeSymbols)
    (hd : hdist ≤ numDistanceSymbols) (hroom : lens.length < hlit + hdist) (v : ℕ) :
    ∃ s', AuroraOS.putLength hlit v s = .ok s' ∧ s'.bp = s.bp ∧
      LengthsStored hlit hdist (lens ++ [v]) s' := by
  rw [AuroraOS.putLength, h.i]
  by_cases hi : lens.length < hlit
  · have hlen : (lens ++ [v]).length ≤ hlit := by
      rw [List.length_append, List.length_singleton]
      omega
    have hbit := h.bitlen
    have hbitD := h.bitlenD
    rw [List.take_of_length_le hi.le] at hbit
    rw [List.drop_of_length_le hi.le] at hbitD
    have hlt : lens.length < s.bitlen.length := by
      rw [hbit, length_paddedLengths (by omega)]
      omega
    rw [if_pos hi, writeAt_eq hlt]
    refine ⟨_, rfl, rfl, ?_, ?_, ?_⟩
    · rw [List.length_append, List.length_singleton]
    · rw [List.take_of_length_le hlen, hbit, paddedLengths_set (by omega)]
    · rw [List.drop_of_length_le hlen, hbitD]
  · have hdrop : (lens.drop hlit).length = lens.length - hlit := List.length_drop
    have hlt : lens.length - hlit < s.bitlenD.length := by
      rw [h.bitlenD, length_paddedLengths (by omega)]
      omega
    rw [if_neg hi, writeAt_eq hlt]
    refine ⟨_, rfl, rfl, ?_, ?_, ?_⟩
    · rw [List.length_append, List.length_singleton]
    · rw [List.take_append_of_le_length (by omega), ← h.bitlen]
    · rw [List.drop_append_of_le_length (by omega), h.bitlenD, ← hdrop,
        paddedLengths_set (by omega)]

/-- One length, some times. -/
theorem repeatLength (hl : hlit ≤ numDeflateCodeSymbols) (hd : hdist ≤ numDistanceSymbols)
    (v : ℕ) : ∀ {n : ℕ} {lens : List ℕ} {s : LengthsState}, LengthsStored hlit hdist lens s →
      lens.length + n ≤ hlit + hdist → ∃ s', AuroraOS.repeatLength hlit hdist v n s = .ok s' ∧
        s'.bp = s.bp ∧ LengthsStored hlit hdist (lens ++ List.replicate n v) s' := by
  intro n
  induction n with
  | zero =>
    intro lens s h _
    exact ⟨s, rfl, rfl, by rwa [List.replicate_zero, List.append_nil]⟩
  | succ n ih =>
    intro lens s h hroom
    obtain ⟨s', hs', hbp', h'⟩ := h.putLength hl hd (by omega) v
    obtain ⟨s'', hs'', hbp'', h''⟩ := ih h' (by
      rw [List.length_append, List.length_singleton]
      omega)
    refine ⟨s'', ?_, hbp''.trans hbp', ?_⟩
    · rw [AuroraOS.repeatLength, if_neg (by rw [h.i]; omega), hs', ok_bind, hs'']
    · rwa [List.replicate_succ, ← List.singleton_append, ← List.append_assoc]

/-- The last length. -/
theorem previousLength (h : LengthsStored hlit hdist lens s) (hne : lens ≠ [])
    (hroom : lens.length < 2 ^ 32) :
    AuroraOS.previousLength hlit s = .ok (lens.getLastD 0) := by
  have hpos := List.length_pos_of_ne_nil hne
  have hlast : lens[lens.length - 1]? = some (lens.getLastD 0) := by
    rw [List.getLastD_eq_getLast?, List.getLast?_eq_getElem?, List.getElem?_eq_getElem (by omega)]
    rfl
  rw [AuroraOS.previousLength, h.i, sub32_of_le hpos (by omega)]
  by_cases hi : lens.length - 1 < hlit
  · rw [if_pos hi]
    apply readAt_eq
    rw [h.bitlen, getElem?_paddedLengths (by rw [List.length_take]; omega),
      List.getElem?_take_of_lt hi, hlast]
  · have hsub : sub32 lens.length hlit = lens.length - hlit := sub32_of_le (by omega) (by omega)
    rw [if_neg hi, hsub, sub32_of_le (by omega) (by omega)]
    apply readAt_eq
    rw [h.bitlenD, getElem?_paddedLengths (by rw [List.length_drop]; omega), List.getElem?_drop,
      ← hlast]
    congr 1
    omega

end LengthsStored

theorem length_apply (x : LengthItem) (lens : List ℕ) : lens.length < (x.apply lens).length := by
  cases x <;> simp [LengthItem.apply]

theorem length_expandLengths (items : List LengthItem) (lens : List ℕ) :
    lens.length ≤ (expandLengths items lens).length := by
  induction items generalizing lens with
  | nil => exact le_rfl
  | cons x items ih => exact (length_apply x lens).le.trans (ih _)

/-- The extra bits of a repetition. -/
theorem readReplength_eq {base nbits r : ℕ} (hr : r < 2 ^ nbits)
    (hold : Holds bitstream bp (lsb nbits r)) (hend : bp + nbits < 8 * inlength) :
    readReplength bitstream inlength bp base nbits = .ok (base + r, bp + nbits) := by
  rw [readReplength, if_neg (not_ended (by omega)), readBits_lsb hr hold]
  rfl

/-- **The loop reads the lengths that its items say.** -/
theorem lengthsLoop_eq {tree : HuffmanTree} {c : SymbolCode} {hlit hdist : ℕ} (hT : tree.Reads c)
    (hl : hlit ≤ numDeflateCodeSymbols) (hd : hdist ≤ numDistanceSymbols) :
    ∀ {items : List LengthItem} {fuel : ℕ} {lens : List ℕ} {s : LengthsState},
      LengthsStored hlit hdist lens s → LengthsCoded c items lens →
      (expandLengths items lens).length = hlit + hdist →
      hlit + hdist - lens.length ≤ fuel →
      Holds bitstream s.bp (items.flatMap (LengthItem.bits c)) →
      s.bp + (items.flatMap (LengthItem.bits c)).length < 8 * inlength →
      ∃ s', lengthsLoop bitstream inlength tree hlit hdist fuel s = .ok s' ∧
        s'.bp = s.bp + (items.flatMap (LengthItem.bits c)).length ∧
        LengthsStored hlit hdist (expandLengths items lens) s' := by
  intro items
  induction items with
  | nil =>
    intro fuel lens s h _ hlen _ _ _
    have hend : ¬s.i < hlit + hdist := by
      rw [h.i]
      exact hlen.ge.not_gt
    refine ⟨s, ?_, rfl, h⟩
    cases fuel with
    | zero => rw [lengthsLoop, if_neg hend]
    | succ fuel => rw [lengthsLoop, if_neg hend]
  | cons x items ih =>
    intro fuel lens s h hcoded hlen hfuel hold hend
    have hmono := length_expandLengths items (x.apply lens)
    have hgrow := length_apply x lens
    have hlen' : (expandLengths items (x.apply lens)).length = hlit + hdist := hlen
    have hsome : s.i < hlit + hdist := by
      rw [h.i]
      omega
    obtain ⟨fuel, rfl⟩ : ∃ f, fuel = f + 1 := ⟨fuel - 1, by omega⟩
    rw [List.flatMap_cons] at hold hend
    rw [List.length_append] at hend
    rw [holds_append] at hold
    -- the item brings the lengths up to date and moves the bit pointer behind its bits
    suffices hstep : ∃ s', lengthsLoop bitstream inlength tree hlit hdist (fuel + 1) s =
        lengthsLoop bitstream inlength tree hlit hdist fuel s' ∧
        s'.bp = s.bp + (x.bits c).length ∧ LengthsStored hlit hdist (x.apply lens) s' by
      obtain ⟨s', hs', hbp', h'⟩ := hstep
      obtain ⟨s'', hs'', hbp'', h''⟩ := @ih fuel _ s' h' hcoded.2 hlen' (by omega)
        (by rw [hbp']; exact hold.2) (by rw [hbp']; omega)
      refine ⟨s'', by rw [hs', hs''], ?_, h''⟩
      rw [hbp'', hbp', List.flatMap_cons, List.length_append, Nat.add_assoc]
    rw [lengthsLoop, if_pos hsome]
    -- a repetition: its symbol, its extra bits, and the lengths it repeats
    have hrepeat : ∀ {symbol base nbits r v : ℕ}, symbol ∈ c.symbols → r < 2 ^ nbits →
        x.bits c = c.word symbol ++ lsb nbits r →
        x.apply lens = lens ++ List.replicate (base + r) v →
        decodeSymbol tree bitstream inlength s.bp = .ok (symbol, s.bp + (c.word symbol).length) ∧
        readReplength bitstream inlength (s.bp + (c.word symbol).length) base nbits =
          .ok (base + r, s.bp + (x.bits c).length) ∧
        ∃ s', repeatLength hlit hdist v (base + r) { s with bp := s.bp + (x.bits c).length } =
            .ok s' ∧ s'.bp = s.bp + (x.bits c).length ∧
          LengthsStored hlit hdist (x.apply lens) s' := by
      intro symbol base nbits r v hsymbol hr hbits happly
      have hroom : lens.length + (base + r) ≤ hlit + hdist := by
        have hlen := congrArg List.length happly
        rw [List.length_append, List.length_replicate] at hlen
        omega
      have hold' := hold.1
      rw [hbits] at hend ⊢
      rw [hbits, holds_append] at hold'
      rw [List.length_append, length_lsb] at hend ⊢
      refine ⟨hT.decodeSymbol hsymbol hold'.1 (by omega), ?_, ?_⟩
      · rw [readReplength_eq hr hold'.2 (by omega), Nat.add_assoc]
      · rw [happly]
        exact LengthsStored.repeatLength hl hd v ⟨h.i, h.bitlen, h.bitlenD⟩ hroom
    cases x with
    | length l =>
      obtain ⟨hle, hl'⟩ := hcoded.1
      have hdecode : decodeSymbol tree bitstream inlength s.bp =
          .ok (l, s.bp + (c.word l).length) := hT.decodeSymbol hl' hold.1 (by
        show s.bp + (LengthItem.bits c (.length l)).length ≤ _
        omega)
      obtain ⟨s', hs', hbp', h'⟩ := LengthsStored.putLength
        (s := { s with bp := s.bp + (c.word l).length }) ⟨h.i, h.bitlen, h.bitlenD⟩ hl hd
        (by rw [← h.i]; exact hsome) l
      refine ⟨s', ?_, hbp', h'⟩
      rw [hdecode, ok_bind]
      dsimp only
      rw [if_pos hle, hs', ok_bind]
    | previous r =>
      obtain ⟨hne, hr, h16⟩ := hcoded.1
      obtain ⟨hdecode, hread, s', hs', hbp', h'⟩ := @hrepeat 16 3 2 r _ h16 hr rfl rfl
      refine ⟨s', ?_, hbp', h'⟩
      rw [hdecode, ok_bind]
      dsimp only
      rw [if_neg (by omega), if_pos rfl, hread, ok_bind]
      dsimp only
      have hshort : lens.length < 2 ^ 32 := by
        have hl' : hlit ≤ 288 := hl
        have hd' : hdist ≤ 32 := hd
        omega
      rw [h.previousLength hne hshort, ok_bind, hs', ok_bind]
    | zeros r =>
      obtain ⟨hr, h17⟩ := hcoded.1
      obtain ⟨hdecode, hread, s', hs', hbp', h'⟩ := @hrepeat 17 3 3 r _ h17 hr rfl rfl
      refine ⟨s', ?_, hbp', h'⟩
      rw [hdecode, ok_bind]
      dsimp only
      rw [if_neg (by omega), if_neg (by omega), if_pos rfl, hread, ok_bind]
      dsimp only
      rw [hs', ok_bind]
    | manyZeros r =>
      obtain ⟨hr, h18⟩ := hcoded.1
      obtain ⟨hdecode, hread, s', hs', hbp', h'⟩ := @hrepeat 18 11 7 r _ h18 hr rfl rfl
      refine ⟨s', ?_, hbp', h'⟩
      rw [hdecode, ok_bind]
      dsimp only
      rw [if_neg (by omega), if_neg (by omega), if_neg (by omega), if_pos rfl, hread, ok_bind]
      dsimp only
      rw [hs', ok_bind]

/-! ## Headers -/

/-- The lengths of the code length codes, with zeros for the symbols that are not read yet. -/
def CodeLengths (lens : List ℕ) (cs codelengthcode : List ℕ) : Prop :=
  codelengthcode.length = lens.length ∧
    ∀ c < lens.length, c ∉ cs → codelengthcode[c]? = lens[c]?

/-- The loop reads the lengths of the code length codes in their order. -/
theorem codeLengthCodes_eq {lens : List ℕ} {hclen : ℕ} (hsmall : ∀ l ∈ lens, l < 2 ^ 3) :
    ∀ {cs : List ℕ} {i : ℕ} {acc : List ℕ} {bp : ℕ}, (∀ c ∈ cs, c < lens.length) → cs.Nodup →
      (∀ c ∈ cs.drop (hclen - i), lens.getD c 0 = 0) → CodeLengths lens cs acc →
      Holds bitstream bp ((cs.take (hclen - i)).flatMap fun c => lsb 3 (lens.getD c 0)) →
      codeLengthCodes bitstream hclen cs i acc bp = .ok (lens, bp +
        ((cs.take (hclen - i)).flatMap fun c => lsb 3 (lens.getD c 0)).length) := by
  intro cs
  induction cs with
  | nil =>
    intro i acc bp _ _ _ hacc _
    have heq : acc = lens := by
      apply List.ext_getElem?
      intro c
      rcases Nat.lt_or_ge c lens.length with hc | hc
      · exact hacc.2 c hc List.not_mem_nil
      · rw [List.getElem?_eq_none hc, List.getElem?_eq_none (by rw [hacc.1]; exact hc)]
    rw [codeLengthCodes, heq, List.take_nil]
    rfl
  | cons c cs ih =>
    intro i acc bp hlt hnodup habsent hacc hold
    have hc : c < lens.length := hlt c List.mem_cons_self
    have hc' : c < acc.length := by
      rw [hacc.1]
      exact hc
    have hget : lens[c]? = some (lens.getD c 0) := by
      rw [List.getD_eq_getElem?_getD, List.getElem?_eq_getElem hc, Option.getD_some]
    have hnext : CodeLengths lens cs (acc.set c (lens.getD c 0)) := by
      refine ⟨by rw [List.length_set, hacc.1], fun d hd hnot => ?_⟩
      by_cases hcd : c = d
      · rw [← hcd, List.getElem?_set_self hc', hget]
      · rw [List.getElem?_set_ne hcd]
        exact hacc.2 d hd fun hmem => (List.mem_cons.mp hmem).elim (fun h => hcd h.symm) hnot
    have hlt' : ∀ d ∈ cs, d < lens.length := fun d hd => hlt d (List.mem_cons_of_mem c hd)
    rw [codeLengthCodes]
    by_cases hi : i < hclen
    · obtain ⟨m, hm⟩ : ∃ m, hclen - i = m + 1 := ⟨hclen - i - 1, by omega⟩
      have hm' : hclen - (i + 1) = m := by omega
      rw [hm, List.take_succ_cons, List.flatMap_cons, holds_append, length_lsb] at hold
      rw [hm, List.drop_succ_cons] at habsent
      have hrest := @ih (i + 1) _ (bp + 3) hlt' hnodup.of_cons (by rwa [hm']) hnext
        (by rw [hm']; exact hold.2)
      have hval := hsmall _ (List.mem_of_getElem? hget)
      rw [if_pos hi, readBits_lsb hval hold.1, ok_bind]
      dsimp only
      rw [writeAt_eq hc', ok_bind, hrest, hm, hm', List.take_succ_cons, List.flatMap_cons,
        List.length_append, length_lsb, Nat.add_assoc]
    · have h0 : hclen - i = 0 := by omega
      have h0' : hclen - (i + 1) = 0 := by omega
      rw [h0, List.drop_zero] at habsent
      have hrest := @ih (i + 1) _ bp hlt' hnodup.of_cons
        (by rw [h0']; exact fun d hd => habsent d (List.mem_cons_of_mem c hd)) hnext
        (by rw [h0']; trivial)
      have hzero := habsent c List.mem_cons_self
      rw [if_neg hi, ok_bind]
      dsimp only
      rw [← hzero, writeAt_eq hc', ok_bind, hrest, h0, h0']
      rfl

/-- Lengths that make a tree make one that decodes their code. -/
theorem BlockHeader.Buildable.createLengths {numcodes maxbitlen : ℕ} {bitlen : List ℕ}
    (h : BlockHeader.Buildable numcodes maxbitlen bitlen) (hlen : bitlen.length = numcodes)
    (h2 : 2 ≤ numcodes) (hroom : 2 * numcodes ≤ unfilled) :
    ∃ tree, AuroraOS.createLengths numcodes maxbitlen bitlen = .ok tree ∧
      tree.Reads (.ofLengths bitlen) := by
  have hbuilt := createLengths_eq h2 hroom hlen h.short h.below h.notOversubscribed
  rw [if_pos h.room] at hbuilt
  obtain ⟨tree, htree, _, hreads⟩ := hbuilt
  exact ⟨tree, htree, hreads⟩

namespace BlockHeader

variable {h : BlockHeader}

theorem WellFormed.length_bitlen (hw : h.WellFormed) : h.bitlen.length = numDeflateCodeSymbols := by
  have hlit := hw.hlit_lt
  refine length_paddedLengths ((List.length_take_le _ _).trans ?_)
  show h.hlit + 257 ≤ 288
  omega

theorem WellFormed.length_bitlenD (hw : h.WellFormed) :
    h.bitlenD.length = numDistanceSymbols := by
  have hdist := hw.hdist_lt
  have hlen := hw.length
  apply length_paddedLengths
  rw [List.length_drop]
  show h.lens.length - (h.hlit + 257) ≤ 32
  omega

/-- The end of a block has a word. -/
theorem WellFormed.endCode_mem (hw : h.WellFormed) :
    256 ∈ (SymbolCode.ofLengths h.bitlen).symbols :=
  mem_used.mpr ⟨by rw [hw.length_bitlen]; decide, hw.endCode⟩

end BlockHeader

/-- **The header of a block gives the trees of its codes.** -/
theorem getTreeInflateDynamic_eq {h : BlockHeader} (hw : h.WellFormed)
    (hold : Holds bitstream bp h.bits) (hend : bp + h.bits.length < 8 * (inlength - 2))
    (hin : inlength < 2 ^ 32) : ∃ codetree codetreeD,
      getTreeInflateDynamic bitstream inlength bp =
        .ok (codetree, codetreeD, bp + h.bits.length) ∧
      codetree.Reads (.ofLengths h.bitlen) ∧ codetreeD.Reads (.ofLengths h.bitlenD) := by
  obtain ⟨tree, htree, hreads⟩ := hw.lengths.createLengths hw.size (by decide) (by decide)
  obtain ⟨codetree, hcodetree, hreadsC⟩ :=
    hw.literals.createLengths hw.length_bitlen (by decide) (by decide)
  obtain ⟨codetreeD, hcodetreeD, hreadsD⟩ :=
    hw.distances.createLengths hw.length_bitlenD (by decide) (by decide)
  refine ⟨codetree, codetreeD, ?_, hreadsC, hreadsD⟩
  have hin2 : 2 < inlength := by omega
  have hsub : sub32 inlength 2 = inlength - 2 := sub32_of_le (by omega) hin
  have hlit := hw.hlit_lt
  have hdist := hw.hdist_lt
  have hall : ∀ c < h.codelengthcode.length, c ∉ clcl →
      (List.replicate numCodeLengthCodes 0)[c]? = h.codelengthcode[c]? := by
    intro c hc hnot
    rw [hw.size] at hc
    exact absurd ((by decide : ∀ c < numCodeLengthCodes, c ∈ clcl) c hc) hnot
  have hsmall : ∀ l ∈ h.codelengthcode, l < 2 ^ 3 := fun l hl =>
    Nat.lt_succ_of_le (hw.lengths.short l hl)
  have hstart : ¬bp >>> 3 ≥ sub32 inlength 2 := by
    rw [hsub]
    exact not_ended (by omega)
  simp only [BlockHeader.bits, holds_append, List.length_append, length_lsb] at hold hend ⊢
  obtain ⟨⟨⟨⟨h1, h2⟩, h3⟩, h4⟩, h5⟩ := hold
  have hcodes := codeLengthCodes_eq (i := 0) hsmall (by rw [hw.size]; decide) (by decide) hw.absent
    ⟨by rw [List.length_replicate, hw.size], hall⟩ h4
  rw [Nat.sub_zero] at hcodes
  have hempty : ∀ bp, LengthsStored (h.hlit + 257) (h.hdist + 1) [] ⟨0, bp, List.replicate
      numDeflateCodeSymbols 0, List.replicate numDistanceSymbols 0⟩ := fun _ => ⟨rfl, rfl, rfl⟩
  have hend' : _ < 8 * inlength :=
    (Nat.lt_of_le_of_lt (Nat.add_assoc _ _ _).le hend).trans_le (by omega)
  obtain ⟨s, hs, hbp, hstored⟩ := lengthsLoop_eq hreads (by show h.hlit + 257 ≤ 288; omega)
    (by show h.hdist + 1 ≤ 32; omega) (hempty _) hw.coded hw.length
    (show _ ≤ h.hlit + 257 + (h.hdist + 1) from le_rfl) h5 hend'
  have hend256 : ¬s.bitlen.getD 256 0 = 0 := by
    rw [hstored.bitlen]
    exact hw.endCode
  have hC : createLengths numDeflateCodeSymbols 15 s.bitlen = .ok codetree := by
    rw [hstored.bitlen]
    exact hcodetree
  have hD : createLengths numDistanceSymbols 15 s.bitlenD = .ok codetreeD := by
    rw [hstored.bitlenD]
    exact hcodetreeD
  rw [getTreeInflateDynamic, if_neg hstart, readBits_lsb hw.hlit_lt h1, ok_bind]
  dsimp only
  rw [readBits_lsb hw.hdist_lt h2, ok_bind]
  dsimp only
  rw [Nat.add_assoc bp 5 5, readBits_lsb hw.hclen_lt h3, ok_bind]
  dsimp only
  rw [Nat.add_assoc bp (5 + 5) 4, hcodes, ok_bind]
  dsimp only
  rw [htree, ok_bind, Nat.add_assoc bp, hs, ok_bind, if_neg hend256, hC, ok_bind, hD, ok_bind, hbp]
  exact congrArg (fun n => Except.ok (codetree, codetreeD, n)) (Nat.add_assoc _ _ _)

end AuroraOS
