/-
# Accesses of the decompressor

What the decompressor of `gui/upng.c` can do on arbitrary input: it always stops, it reads no
more than a few bytes behind the compressed data, and it never writes outside of its arrays.
It leaves its arrays for three reasons only: a code length of 15 bits, which `blcount` has no
entry for; a repeated code length with none before it; and a copy from before the output.
-/
import AuroraOS.Ensures
import AuroraOS.HuffmanCodes
import AuroraOS.Inflate

namespace AuroraOS

open BitStream Machine

/-- The stops that can happen. -/
def Stop.Expected : Stop → Prop
  | .error _ => True
  | .outOfBounds a => a = .blcount ∨ a = .previous ∨ a = .outRead
  | .outOfFuel => False

/-- A program that stops for an expected reason, if it does not return a result with `P`. -/
abbrev Safe {α : Type} (P : α → Prop) (r : Except Stop α) : Prop := Ensures Stop.Expected P r

theorem malformed_safe {α : Type} {P : α → Prop} : Safe P malformed := .error trivial

theorem readAt_safe {α : Type} {a : PngAccess} {l : List α} {i : ℕ} (h : i < l.length) :
    Safe (fun v => v ∈ l) (readAt a l i) := by
  rw [readAt_of_lt h]
  exact .ok (List.getElem_mem h)

theorem writeAt_safe {α : Type} {a : PngAccess} {l : List α} {i : ℕ} {v : α} (h : i < l.length) :
    Safe (fun l' => l'.length = l.length) (writeAt a l i v) := by
  rw [writeAt_eq h]
  exact .ok List.length_set

/-! ## Bits and symbols -/

section Reading

variable {bitstream : List UInt8} {inlength bp : ℕ}

theorem readBit_safe (h : bp < 8 * bitstream.length) :
    Safe (fun r => r.1 ≤ 1 ∧ r.2 = bp + 1) (readBit bitstream bp) := by
  obtain ⟨w, hlen, hw⟩ := exists_holds (n := 1) h
  obtain ⟨b, rfl⟩ := List.length_eq_one_iff.mp hlen
  rw [readBit_eq hw.1]
  exact .ok ⟨b.toNat_le, rfl⟩

theorem readBits_safe {n : ℕ} (h : bp + n ≤ 8 * bitstream.length) :
    Safe (fun r => r.1 < 2 ^ n ∧ r.2 = bp + n) (readBits bitstream bp n) := by
  obtain ⟨w, rfl, hw⟩ := exists_holds h
  rw [readBits_eq hw]
  exact .ok ⟨ofLsb_lt w, rfl⟩

/-- The bit pointer never gets beyond this position. -/
def limit (inlength : ℕ) : ℕ := 8 * (inlength + 7)

/-- A tree whose table has two entries for every column. -/
def Sized (tree : HuffmanTree) : Prop := tree.tree2d.length = 2 * tree.numcodes

/-- The loop stops at the next byte boundary behind the input at the latest. -/
theorem decodeLoop_safe {tree : HuffmanTree} (hin : inlength + 7 ≤ bitstream.length)
    (hsize : Sized tree) {m : ℕ} (hm : inlength < m) (hm' : m ≤ inlength + 7) : ∀ {fuel bp p : ℕ},
      p < tree.numcodes → bp ≤ 8 * m → 8 * m - bp ≤ fuel →
      Safe (fun r => r.1 < tree.numcodes ∧ bp < r.2 ∧ r.2 ≤ 8 * m)
        (decodeLoop tree bitstream inlength fuel bp p) := by
  intro fuel
  induction fuel with
  | zero =>
    intro bp p _ hbp hfuel
    have hend : bp &&& 0x7 = 0 ∧ bp >>> 3 > inlength := by
      rw [and_seven, shiftRight_three]
      omega
    rw [decodeLoop, if_pos hend]
    exact malformed_safe
  | succ fuel ih =>
    intro bp p hp hbp hfuel
    rw [decodeLoop]
    refine Ensures.ite (fun _ => malformed_safe) fun hend => ?_
    rw [and_seven, shiftRight_three] at hend
    refine (readBit_safe (by omega)).bind fun r hr => ?_
    obtain ⟨bit, bp'⟩ := r
    obtain ⟨hbit, rfl⟩ := hr
    have hbit' : bit < 2 ^ 1 := Nat.lt_succ_of_le hbit
    have hindex : p <<< 1 ||| bit = 2 * p + bit := by
      rw [← Nat.shiftLeft_add_eq_or_of_lt hbit', Nat.shiftLeft_eq, pow_one, Nat.mul_comm]
    refine (readAt_safe ?_).bind fun ct _ => ?_
    · rw [hindex, hsize]
      omega
    refine Ensures.ite (fun hct => .ok ⟨hct, Nat.lt_succ_self _, by dsimp only; omega⟩)
      fun hct => ?_
    refine Ensures.ite (fun _ => malformed_safe) fun hct' => ?_
    refine (ih (by omega) (by omega) (by omega)).mono fun r hr => ?_
    exact ⟨hr.1, by omega, hr.2.2⟩

/-- **Decoding a symbol takes a bit at least and stops soon behind the input.** -/
theorem decodeSymbol_safe {tree : HuffmanTree} (hin : inlength + 7 ≤ bitstream.length)
    (hsize : Sized tree) (hpos : 0 < tree.numcodes) (hbp : bp ≤ limit inlength) :
    Safe (fun r => r.1 < tree.numcodes ∧ bp < r.2 ∧ r.2 ≤ limit inlength)
      (decodeSymbol tree bitstream inlength bp) := by
  rw [limit] at hbp ⊢
  rw [decodeSymbol, decodeFuel]
  have hend : 8 * max (inlength + 1) ((bp + 7) / 8) ≤ 8 * (inlength + 7) := by omega
  refine (decodeLoop_safe (m := max (inlength + 1) ((bp + 7) / 8)) hin hsize (by omega) (by omega)
    hpos (by omega) (by omega)).mono fun r hr => ?_
  exact ⟨hr.1, hr.2.1, hr.2.2.trans hend⟩

end Reading

/-! ## The trees of a block -/

section Trees

variable {numcodes maxbitlen : ℕ} {bitlen : List ℕ}

/-- Building a tree stops only for a code length that `blcount` has no entry for. -/
theorem createLengths_safe (h2 : 2 ≤ numcodes) : Safe (fun tree => tree.numcodes = numcodes ∧
    Sized tree) (createLengths numcodes maxbitlen bitlen) := by
  rw [createLengths]
  refine Ensures.bind (P := fun _ => True) ?_ fun blcount _ => ?_
  · by_cases hlt : ∀ l ∈ bitlen, l < maxBitLength
    · obtain ⟨blcount, h, _⟩ := countLengths_ok hlt
      rw [h]
      exact .ok trivial
    · push Not at hlt
      rw [countLengths, foldlM_outOfBounds hlt List.length_replicate]
      exact .error (.inl rfl)
  · rcases Filling.putCodes_size h2 (n := 0)
      (s := ⟨List.replicate (2 * numcodes) unfilled, 0, 0⟩) List.length_replicate with
      h | ⟨s, h, hsize⟩
    · rw [h]
      exact malformed_safe
    · rw [h]
      exact .ok ⟨rfl, by rw [Sized, List.length_map, hsize]⟩

end Trees

section Lengths

variable {bitstream : List UInt8} {inlength : ℕ} {hlit hdist : ℕ}

/-- The arrays of the code lengths have their sizes, and the bit pointer is in its range. -/
structure LengthsFit (inlength : ℕ) (s : LengthsState) : Prop where
  bitlen : s.bitlen.length = numDeflateCodeSymbols
  bitlenD : s.bitlenD.length = numDistanceSymbols
  bp : s.bp ≤ limit inlength

theorem putLength_safe {s : LengthsState} (h : LengthsFit inlength s)
    (hl : hlit ≤ numDeflateCodeSymbols) (hd : hdist ≤ numDistanceSymbols)
    (hi : s.i < hlit + hdist) (v : ℕ) :
    Safe (fun s' => LengthsFit inlength s' ∧ s'.i = s.i + 1 ∧ s'.bp = s.bp)
      (putLength hlit v s) := by
  rw [putLength]
  refine Ensures.ite (fun hlt => ?_) fun hge => ?_
  · refine (writeAt_safe (by rw [h.bitlen]; omega)).bind fun l hlen => ?_
    exact .ok ⟨⟨hlen.trans h.bitlen, h.bitlenD, h.bp⟩, rfl, rfl⟩
  · refine (writeAt_safe (by rw [h.bitlenD]; omega)).bind fun l hlen => ?_
    exact .ok ⟨⟨h.bitlen, hlen.trans h.bitlenD, h.bp⟩, rfl, rfl⟩

theorem repeatLength_safe (hl : hlit ≤ numDeflateCodeSymbols) (hd : hdist ≤ numDistanceSymbols)
    (v : ℕ) : ∀ {n : ℕ} {s : LengthsState}, LengthsFit inlength s →
      Safe (fun s' => LengthsFit inlength s' ∧ s'.i = s.i + n ∧ s'.bp = s.bp)
        (repeatLength hlit hdist v n s) := by
  intro n
  induction n with
  | zero => intro s h; exact .ok ⟨h, rfl, rfl⟩
  | succ n ih =>
    intro s h
    rw [repeatLength]
    refine Ensures.ite (fun _ => malformed_safe) fun hi => ?_
    refine (putLength_safe h hl hd (Nat.lt_of_not_le hi) v).bind fun s' hs' => ?_
    obtain ⟨hfit, hi', hbp'⟩ := hs'
    refine (ih hfit).mono fun s'' hs'' => ?_
    exact ⟨hs''.1, by omega, hs''.2.2.trans hbp'⟩

/-- The previous length is looked up in front of the arrays only when there is none. -/
theorem previousLength_safe (s : LengthsState) :
    Safe (fun _ => True) (previousLength hlit s) := by
  have hread : ∀ (l : List ℕ) i, Safe (fun _ => True) (readAt .previous l i) := by
    intro l i
    rw [readAt]
    cases l[i]? with
    | none => exact .error (.inr (.inl rfl))
    | some v => exact .ok trivial
  rw [previousLength]
  exact Ensures.ite (fun _ => hread _ _) fun _ => hread _ _

theorem readReplength_safe {bp base nbits : ℕ} (hin : inlength + 7 ≤ bitstream.length)
    (hbits : nbits ≤ 7) : Safe (fun r => base ≤ r.1 ∧ bp ≤ r.2 ∧ r.2 ≤ limit inlength)
      (readReplength bitstream inlength bp base nbits) := by
  rw [readReplength, limit]
  refine Ensures.ite (fun _ => malformed_safe) fun hend => ?_
  rw [shiftRight_three] at hend
  refine (readBits_safe (by omega)).bind fun r hr => ?_
  obtain ⟨extra, bp'⟩ := r
  obtain ⟨_, rfl⟩ := hr
  exact .ok ⟨Nat.le_add_right _ _, Nat.le_add_right _ _, by dsimp only; omega⟩

/-- **The loop over the code lengths stops**, and keeps to its arrays. -/
theorem lengthsLoop_safe {tree : HuffmanTree} (hin : inlength + 7 ≤ bitstream.length)
    (hsize : Sized tree) (hpos : 0 < tree.numcodes) (hl : hlit ≤ numDeflateCodeSymbols)
    (hd : hdist ≤ numDistanceSymbols) : ∀ {fuel : ℕ} {s : LengthsState}, LengthsFit inlength s →
      hlit + hdist - s.i ≤ fuel → Safe (fun s' => LengthsFit inlength s' ∧ s.bp ≤ s'.bp)
        (lengthsLoop bitstream inlength tree hlit hdist fuel s) := by
  intro fuel
  induction fuel with
  | zero =>
    intro s h hfuel
    rw [lengthsLoop, if_neg (by omega)]
    exact .ok ⟨h, le_rfl⟩
  | succ fuel ih =>
    intro s h hfuel
    rw [lengthsLoop]
    refine Ensures.ite (fun hi => ?_) fun _ => .ok ⟨h, le_rfl⟩
    refine (decodeSymbol_safe hin hsize hpos h.bp).bind fun r hr => ?_
    obtain ⟨code, bp⟩ := r
    obtain ⟨_, hlt, hbp⟩ := hr
    -- a repetition, of some length
    have hrepeat : ∀ {base nbits : ℕ} {value : Except Stop ℕ}, 0 < base → nbits ≤ 7 →
        Safe (fun _ => True) value → Safe (fun s' => LengthsFit inlength s' ∧ s.bp ≤ s'.bp)
          (readReplength bitstream inlength bp base nbits >>= fun r => value >>= fun v =>
            repeatLength hlit hdist v r.1 { s with bp := r.2 } >>= fun s =>
              lengthsLoop bitstream inlength tree hlit hdist fuel s) := by
      intro base nbits value hbase hbits hvalue
      refine (readReplength_safe hin hbits).bind fun r hr => ?_
      obtain ⟨replength, bp'⟩ := r
      obtain ⟨hrep, hle, hbp'⟩ := hr
      refine hvalue.bind fun v _ => ?_
      refine (repeatLength_safe hl hd v (s := { s with bp := bp' })
        ⟨h.bitlen, h.bitlenD, hbp'⟩).bind fun s' hs' => ?_
      obtain ⟨hfit, hi', hsbp⟩ := hs'
      dsimp only at hrep hle hi' hsbp
      refine (ih hfit (by omega)).mono fun s'' hs'' => ⟨hs''.1, ?_⟩
      have := hs''.2
      omega
    refine Ensures.ite (fun _ => ?_) fun _ => Ensures.ite (fun _ => ?_) fun _ =>
      Ensures.ite (fun _ => ?_) fun _ => Ensures.ite (fun _ => ?_) fun _ => malformed_safe
    · refine (putLength_safe (s := { s with bp := bp }) ⟨h.bitlen, h.bitlenD, hbp⟩ hl hd hi
        code).bind fun s' hs' => ?_
      obtain ⟨hfit, hi', hsbp⟩ := hs'
      dsimp only at hi' hsbp hlt
      refine (ih hfit (by omega)).mono fun s'' hs'' => ⟨hs''.1, ?_⟩
      have := hs''.2
      omega
    · exact hrepeat (by decide) (by decide) (previousLength_safe s)
    · exact @hrepeat _ _ (.ok 0) (by decide) (by decide) (.ok trivial)
    · exact @hrepeat _ _ (.ok 0) (by decide) (by decide) (.ok trivial)

theorem codeLengthCodes_safe {hclen : ℕ} {cs : List ℕ} : ∀ {i : ℕ} {acc : List ℕ} {bp : ℕ},
    (∀ c ∈ cs, c < acc.length) → bp + 3 * cs.length ≤ 8 * bitstream.length →
    Safe (fun r => bp ≤ r.2 ∧ r.2 ≤ bp + 3 * cs.length)
      (codeLengthCodes bitstream hclen cs i acc bp) := by
  induction cs with
  | nil => intro i acc bp _ _; exact .ok ⟨le_rfl, le_rfl⟩
  | cons c cs ih =>
    intro i acc bp hlt hend
    rw [List.length_cons] at hend ⊢
    rw [codeLengthCodes]
    -- the rest of the loop, behind a length of at most three bits
    have hrest : ∀ v bp', bp ≤ bp' → bp' ≤ bp + 3 →
        Safe (fun r => bp ≤ r.2 ∧ r.2 ≤ bp + 3 * (cs.length + 1)) (do
          let codelengthcode ← writeAt .table acc c v
          codeLengthCodes bitstream hclen cs (i + 1) codelengthcode bp') := by
      intro v bp' hle hle'
      refine (writeAt_safe (hlt c List.mem_cons_self)).bind fun l hlen => ?_
      refine (ih (fun d hd => ?_) (by omega)).mono fun r hr => ⟨by omega, by omega⟩
      rw [hlen]
      exact hlt d (List.mem_cons_of_mem c hd)
    by_cases hi : i < hclen
    · rw [if_pos hi]
      refine (readBits_safe (by omega)).bind fun r hr => ?_
      obtain ⟨v, bp'⟩ := r
      obtain ⟨_, rfl⟩ := hr
      exact hrest v _ (Nat.le_add_right _ _) le_rfl
    · rw [if_neg hi]
      exact hrest 0 bp le_rfl (Nat.le_add_right _ _)

/-- **The header of a block**: its trees have their sizes, and the bit pointer stays in range. -/
theorem getTreeInflateDynamic_safe {bp : ℕ} (hin : inlength + 7 ≤ bitstream.length)
    (h2 : 2 ≤ inlength) (hword : inlength < 2 ^ 32) :
    Safe (fun r => (Sized r.1 ∧ 0 < r.1.numcodes) ∧ (Sized r.2.1 ∧ 0 < r.2.1.numcodes) ∧
      bp ≤ r.2.2 ∧ r.2.2 ≤ limit inlength) (getTreeInflateDynamic bitstream inlength bp) := by
  rw [getTreeInflateDynamic]
  refine Ensures.ite (fun _ => malformed_safe) fun hstart => ?_
  rw [sub32_of_le h2 hword, shiftRight_three] at hstart
  refine (readBits_safe (by omega)).bind fun r hr => ?_
  obtain ⟨hlit, bp1⟩ := r
  obtain ⟨hlit_lt, rfl⟩ := hr
  refine (readBits_safe (by omega)).bind fun r hr => ?_
  obtain ⟨hdist, bp2⟩ := r
  obtain ⟨hdist_lt, rfl⟩ := hr
  refine (readBits_safe (by omega)).bind fun r hr => ?_
  obtain ⟨hclen, bp3⟩ := r
  obtain ⟨_, rfl⟩ := hr
  dsimp only at hlit_lt hdist_lt ⊢
  have hclcl : clcl.length = 19 := rfl
  have hcodes : ∀ c ∈ clcl, c < (List.replicate numCodeLengthCodes 0).length := by decide
  refine (codeLengthCodes_safe hcodes (by omega)).bind fun r hr => ?_
  obtain ⟨codelengthcode, bp4⟩ := r
  obtain ⟨hle, hle'⟩ := hr
  rw [hclcl] at hle'
  refine (createLengths_safe (by decide)).bind fun tree htree => ?_
  have hfit : LengthsFit inlength ⟨0, bp4, List.replicate numDeflateCodeSymbols 0,
      List.replicate numDistanceSymbols 0⟩ :=
    ⟨List.length_replicate, List.length_replicate, by rw [limit]; dsimp only at hle' ⊢; omega⟩
  refine (lengthsLoop_safe hin htree.2 (by rw [htree.1]; decide)
    (by show hlit + 257 ≤ 288; omega) (by show hdist + 1 ≤ 32; omega) hfit le_rfl).bind
    fun s hs => ?_
  refine Ensures.ite (fun _ => malformed_safe) fun _ => ?_
  refine (createLengths_safe (by decide)).bind fun codetree hC => ?_
  refine (createLengths_safe (by decide)).bind fun codetreeD hD => ?_
  have hbp := hs.2
  dsimp only at hle hbp
  exact .ok ⟨⟨hC.2, by rw [hC.1]; decide⟩, ⟨hD.2, by rw [hD.1]; decide⟩, by dsimp only; omega,
    hs.1.bp⟩

end Lengths

/-! ## Blocks -/

section Blocks

variable {bitstream : List UInt8} {inlength outsize : ℕ}

theorem writeOut_safe {out : List UInt8} (h : out.length < outsize) (c : UInt8) :
    Safe (fun out' => out'.length = out.length + 1) (writeOut outsize out c) := by
  rw [writeOut, if_pos h]
  exact .ok List.length_append

theorem copyLoop_safe {start distance : ℕ} : ∀ {n backward : ℕ} {out : List UInt8},
    out.length + n ≤ outsize → Safe (fun out' => out'.length = out.length + n)
      (copyLoop outsize start distance n backward out) := by
  intro n
  induction n with
  | zero => intro backward out _; exact .ok rfl
  | succ n ih =>
    intro backward out hsize
    have hread : Safe (fun _ => True) (readAt .outRead out backward) := by
      rw [readAt]
      cases out[backward]? with
      | none => exact .error (.inr (.inr rfl))
      | some v => exact .ok trivial
    rw [copyLoop]
    refine hread.bind fun c _ => (writeOut_safe (by omega) c).bind fun out' hout' => ?_
    exact (ih (by omega)).mono fun out'' hout'' => by omega

theorem storedLoop_safe : ∀ {n p : ℕ} {out : List UInt8}, p + n ≤ bitstream.length →
    out.length + n ≤ outsize → Safe (fun out' => out'.length = out.length + n)
      (storedLoop bitstream outsize n p out) := by
  intro n
  induction n with
  | zero => intro p out _ _; exact .ok rfl
  | succ n ih =>
    intro p out hp hsize
    rw [storedLoop]
    refine (readAt_safe (by omega)).bind fun c _ => ?_
    refine (writeOut_safe (by omega) c).bind fun out' hout' => ?_
    exact (ih (by omega) (by omega)).mono fun out'' hout'' => by omega

/-- The bit pointer moves forward and stays in range, and the output fits its array. -/
structure Inflates (inlength outsize bp : ℕ) (s : Inflating) : Prop where
  forward : bp ≤ s.bp
  bp : s.bp ≤ limit inlength
  out : s.out.length ≤ outsize

theorem inflateMatch_safe {codetreeD : HuffmanTree} {code : ℕ} {s : Inflating}
    (hin : inlength + 7 ≤ bitstream.length) (hsize : Sized codetreeD)
    (hpos : 0 < codetreeD.numcodes) (hcode : 257 ≤ code ∧ code ≤ 285) :
    Safe (Inflates inlength outsize s.bp)
      (inflateMatch bitstream inlength outsize codetreeD code s) := by
  have hlengths : ∀ v ∈ lengthExtra, v ≤ 5 := by decide
  have hdistances : ∀ v ∈ distanceExtra, v ≤ 13 := by decide
  have hlen : lengthBase.length = 29 ∧ lengthExtra.length = 29 := ⟨rfl, rfl⟩
  have hlenD : distanceBase.length = 30 ∧ distanceExtra.length = 30 := ⟨rfl, rfl⟩
  rw [inflateMatch]
  refine (readAt_safe (by omega)).bind fun length _ => ?_
  refine (readAt_safe (by omega)).bind fun numextrabits hextra => ?_
  have hextra' := hlengths _ hextra
  refine Ensures.ite (fun _ => malformed_safe) fun hend => ?_
  rw [shiftRight_three] at hend
  refine (readBits_safe (by omega)).bind fun r hr => ?_
  obtain ⟨extra, bp1⟩ := r
  obtain ⟨_, rfl⟩ := hr
  refine (decodeSymbol_safe hin hsize hpos (by rw [limit]; omega)).bind fun r hr => ?_
  obtain ⟨codeD, bp2⟩ := r
  obtain ⟨_, hlt, hbp2⟩ := hr
  dsimp only at hlt hbp2 ⊢
  refine Ensures.ite (fun _ => malformed_safe) fun hcodeD => ?_
  refine (readAt_safe (by omega)).bind fun distance _ => ?_
  refine (readAt_safe (by omega)).bind fun numextrabitsD hextraD => ?_
  have hextraD' := hdistances _ hextraD
  refine Ensures.ite (fun _ => malformed_safe) fun hend' => ?_
  rw [shiftRight_three] at hend'
  refine (readBits_safe (by omega)).bind fun r hr => ?_
  obtain ⟨extraD, bp3⟩ := r
  obtain ⟨_, rfl⟩ := hr
  dsimp only
  refine Ensures.ite (fun _ => malformed_safe) fun hroom => ?_
  refine (copyLoop_safe (by omega)).bind fun out hout => ?_
  exact .ok ⟨by dsimp only; omega, by rw [limit]; dsimp only; omega, by dsimp only; omega⟩

/-- **The loop of a block stops**: every turn takes a bit, and the input ends. -/
theorem inflateLoop_safe {codetree codetreeD : HuffmanTree}
    (hin : inlength + 7 ≤ bitstream.length) (hsize : Sized codetree) (hpos : 0 < codetree.numcodes)
    (hsizeD : Sized codetreeD) (hposD : 0 < codetreeD.numcodes) :
    ∀ {fuel : ℕ} {s : Inflating}, s.bp ≤ limit inlength → s.out.length ≤ outsize →
      limit inlength - s.bp < fuel → Safe (Inflates inlength outsize s.bp)
        (inflateLoop bitstream inlength outsize codetree codetreeD fuel s) := by
  intro fuel
  induction fuel with
  | zero => intro s _ _ hfuel; exact absurd hfuel (Nat.not_lt_zero _)
  | succ fuel ih =>
    intro s hbp hout hfuel
    rw [inflateLoop]
    refine (decodeSymbol_safe hin hsize hpos hbp).bind fun r hr => ?_
    obtain ⟨code, bp⟩ := r
    obtain ⟨_, hlt, hbp'⟩ := hr
    dsimp only at hlt hbp' ⊢
    -- a turn that ends at a state ahead of `bp` leaves enough fuel for the others
    have hnext : ∀ {s' : Inflating}, Inflates inlength outsize bp s' →
        Safe (Inflates inlength outsize s.bp)
          (inflateLoop bitstream inlength outsize codetree codetreeD fuel s') := by
      intro s' hs'
      have hforward := hs'.forward
      refine (ih hs'.bp hs'.out (by omega)).mono fun s'' hs'' => ?_
      have := hs''.forward
      exact ⟨by omega, hs''.bp, hs''.out⟩
    refine Ensures.ite (fun _ => .ok ⟨hlt.le, hbp', hout⟩) fun _ => ?_
    refine Ensures.ite (fun _ => ?_) fun _ => Ensures.ite (fun hcode => ?_) fun _ => ?_
    · refine Ensures.ite (fun _ => malformed_safe) fun hroom => ?_
      refine (writeOut_safe (by omega) _).bind fun out' hout' => ?_
      exact hnext ⟨le_rfl, hbp', by dsimp only; omega⟩
    · exact (inflateMatch_safe hin hsizeD hposD hcode).bind fun s' hs' => hnext hs'
    · exact hnext ⟨le_rfl, hbp', hout⟩

theorem fixedCodetree_sized : Sized fixedCodetree := by
  have hlen : fixedDeflateCodeTree.length = 2 * numDeflateCodeSymbols := by decide +kernel
  exact hlen

theorem fixedCodetreeD_sized : Sized fixedCodetreeD := by
  have hlen : fixedDistanceTree.length = 2 * numDistanceSymbols := by decide +kernel
  exact hlen

/-- **A block with Huffman codes** stops, and keeps to its arrays. -/
theorem inflateHuffman_safe {btype : ℕ} {s : Inflating} (hin : inlength + 7 ≤ bitstream.length)
    (h2 : 2 ≤ inlength) (hword : inlength < 2 ^ 32) (hbp : s.bp ≤ limit inlength)
    (hout : s.out.length ≤ outsize) : Safe (Inflates inlength outsize s.bp)
      (inflateHuffman bitstream inlength outsize btype s) := by
  have hloop : ∀ {codetree codetreeD : HuffmanTree} {bp : ℕ}, Sized codetree →
      0 < codetree.numcodes → Sized codetreeD → 0 < codetreeD.numcodes → s.bp ≤ bp →
      bp ≤ limit inlength → Safe (Inflates inlength outsize s.bp)
        (inflateLoop bitstream inlength outsize codetree codetreeD (inflateFuel inlength)
          ⟨bp, s.out⟩) := by
    intro codetree codetreeD bp hsize hpos hsizeD hposD hle hbp'
    refine (inflateLoop_safe (s := ⟨bp, s.out⟩) hin hsize hpos hsizeD hposD hbp' hout ?_).mono
      fun s' hs' => ?_
    · rw [inflateFuel, limit]
      omega
    · have hforward := hs'.forward
      exact ⟨hle.trans hforward, hs'.bp, hs'.out⟩
  rw [inflateHuffman]
  by_cases hbtype : btype = 1
  · rw [if_pos hbtype, ok_bind]
    exact hloop fixedCodetree_sized (by decide) fixedCodetreeD_sized (by decide) le_rfl hbp
  · rw [if_neg hbtype]
    refine (getTreeInflateDynamic_safe hin h2 hword).bind fun r hr => ?_
    obtain ⟨codetree, codetreeD, bp⟩ := r
    obtain ⟨⟨hsize, hpos⟩, ⟨hsizeD, hposD⟩, hle, hbp'⟩ := hr
    exact hloop hsize hpos hsizeD hposD hle hbp'

theorem toBoundary_le {bp : ℕ} : ∀ n, bp ≤ toBoundary n bp ∧ toBoundary n bp ≤ bp + n := by
  intro n
  induction n generalizing bp with
  | zero => exact ⟨le_rfl, le_rfl⟩
  | succ n ih =>
    rw [toBoundary]
    split_ifs
    · have := @ih (bp + 1)
      omega
    · omega

/-- The number of steps to the boundary suffices. -/
theorem toBoundary_mod {bp : ℕ} : ∀ n, (8 - bp % 8) % 8 ≤ n → toBoundary n bp % 8 = 0 := by
  intro n
  induction n generalizing bp with
  | zero => intro h; rw [toBoundary]; omega
  | succ n ih =>
    intro h
    rw [toBoundary, and_seven]
    split_ifs with hne
    · exact ih (by omega)
    · omega

/-- **A stored block** stops, and keeps to its arrays. -/
theorem inflateUncompressed_safe {s : Inflating} (hin : inlength + 7 ≤ bitstream.length)
    (hbp : s.bp ≤ 8 * inlength + 2) :
    Safe (Inflates inlength outsize s.bp)
      (inflateUncompressed bitstream inlength outsize s) := by
  have hle := @toBoundary_le s.bp 7
  have hmod := @toBoundary_mod s.bp 7 (by omega)
  rw [inflateUncompressed]
  dsimp only
  refine Ensures.ite (fun _ => malformed_safe) fun hp => ?_
  have hp' : toBoundary 7 s.bp / 8 + 4 ≤ bitstream.length := by omega
  refine (readAt_safe (by omega)).bind fun len0 _ => ?_
  refine (readAt_safe (by omega)).bind fun len1 _ => ?_
  refine (readAt_safe (by omega)).bind fun nlen0 _ => ?_
  refine (readAt_safe (by omega)).bind fun nlen1 _ => ?_
  refine Ensures.ite (fun _ => malformed_safe) fun _ => ?_
  refine Ensures.ite (fun _ => malformed_safe) fun hroom => ?_
  refine Ensures.ite (fun _ => malformed_safe) fun hend => ?_
  refine (storedLoop_safe (by omega) (by omega)).bind fun out hout => ?_
  exact .ok ⟨by dsimp only; omega, by rw [limit]; dsimp only; omega, by dsimp only; omega⟩

theorem inflateBlock_safe {btype : ℕ} {s : Inflating} (hin : inlength + 7 ≤ bitstream.length)
    (h2 : 2 ≤ inlength) (hword : inlength < 2 ^ 32) (hbp : s.bp ≤ 8 * inlength + 2)
    (hout : s.out.length ≤ outsize) : Safe (Inflates inlength outsize s.bp)
      (inflateBlock bitstream inlength outsize btype s) := by
  rw [inflateBlock]
  refine Ensures.ite (fun _ => malformed_safe) fun _ => Ensures.ite (fun _ => ?_) fun _ => ?_
  · exact inflateUncompressed_safe hin hbp
  · exact inflateHuffman_safe hin h2 hword (by rw [limit]; omega) hout

/-- **The loop over the blocks stops**: every block takes three bits, and the input ends. -/
theorem dataLoop_safe (hin : inlength + 7 ≤ bitstream.length) (h2 : 2 ≤ inlength)
    (hword : inlength < 2 ^ 32) : ∀ {fuel : ℕ} {s : Inflating}, s.out.length ≤ outsize →
      8 * inlength - s.bp < fuel → Safe (fun s' => s'.out.length ≤ outsize)
        (dataLoop bitstream inlength outsize fuel s) := by
  intro fuel
  induction fuel with
  | zero => intro s _ hfuel; exact absurd hfuel (Nat.not_lt_zero _)
  | succ fuel ih =>
    intro s hout hfuel
    rw [dataLoop]
    refine Ensures.ite (fun _ => malformed_safe) fun hend => ?_
    rw [shiftRight_three] at hend
    refine (readBit_safe (by omega)).bind fun r hr => ?_
    obtain ⟨done, bp1⟩ := r
    obtain ⟨_, rfl⟩ := hr
    refine (readBit_safe (by omega)).bind fun r hr => ?_
    obtain ⟨btype0, bp2⟩ := r
    obtain ⟨_, rfl⟩ := hr
    refine (readBit_safe (by omega)).bind fun r hr => ?_
    obtain ⟨btype1, bp3⟩ := r
    obtain ⟨_, rfl⟩ := hr
    refine (inflateBlock_safe (s := ⟨s.bp + 1 + 1 + 1, s.out⟩) hin h2 hword (by dsimp only; omega)
      hout).bind fun s' hs' => ?_
    have hforward := hs'.forward
    dsimp only at hforward
    exact Ensures.ite (fun _ => ih hs'.out (by omega)) fun _ => .ok hs'.out

end Blocks

/-- **Inflating arbitrary data stops, and keeps to its arrays** but for three reasons: when the
array of the compressed data goes on for nine bytes, whatever they are, no access to it is
outside, and the output never has more than `outsize` bytes. -/
theorem uzInflate_safe {outsize insize : ℕ} {inp : List UInt8} (hin : insize + 9 ≤ inp.length)
    (hword : insize < 2 ^ 32) :
    Safe (fun out => out.length ≤ outsize) (uzInflate outsize inp insize) := by
  rw [uzInflate]
  refine Ensures.ite (fun _ => malformed_safe) fun h2 => ?_
  refine (readAt_safe (by omega)).bind fun in0 _ => ?_
  refine (readAt_safe (by omega)).bind fun in1 _ => ?_
  refine Ensures.ite (fun _ => malformed_safe) fun _ => ?_
  refine Ensures.ite (fun _ => malformed_safe) fun _ => ?_
  refine Ensures.ite (fun _ => malformed_safe) fun _ => ?_
  rw [uzInflateData]
  refine (dataLoop_safe (by rw [List.length_drop]; omega) (by omega) hword (Nat.zero_le _)
    (by dsimp only; omega)).bind fun s hs => .ok hs

end AuroraOS
