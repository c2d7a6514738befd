/-
# The trees that are built decode their codes

`huffman_tree_create_lengths` of `gui/upng.c` puts the canonical code of the lengths into the
table, one code after the other, and allocates an inner node wherever a code leaves the tree
that is there.  When the lengths are not oversubscribed, the inner nodes are exactly the
proper prefixes of the codes: the table is built when there is room for them, and then every
code leads to its symbol.
-/
import AuroraOS.Huffman

namespace AuroraOS

open BitStream PrefixCode Machine

/-! ## Walking a table -/

/-- The inner node behind a bit. -/
def child (t : List ℕ) (numcodes p : ℕ) (b : Bool) : Option ℕ :=
  t[2 * p + b.toNat]?.bind fun v =>
    if numcodes ≤ v ∧ v < 2 * numcodes then some (v - numcodes) else none

/-- The inner node behind a word. -/
def descend (t : List ℕ) (numcodes : ℕ) : ℕ → List Bool → Option ℕ
  | p, [] => some p
  | p, b :: w => (child t numcodes p b).bind fun q => descend t numcodes q w

/-- From the node `p`, the word leads to the symbol `n`. -/
def Leads (t : List ℕ) (numcodes : ℕ) : ℕ → List Bool → ℕ → Prop
  | _, [], _ => False
  | p, b :: w, n =>
    (w = [] ∧ t[2 * p + b.toNat]? = some n ∧ n < numcodes) ∨
      ∃ q, child t numcodes p b = some q ∧ Leads t numcodes q w n

section Walk

variable {t t' : List ℕ} {numcodes p q n j : ℕ} {b : Bool} {u w : List Bool}

theorem child_eq_some :
    child t numcodes p b = some q ↔ t[2 * p + b.toNat]? = some (q + numcodes) ∧ q < numcodes := by
  rw [child, Option.bind_eq_some_iff]
  constructor
  · rintro ⟨v, hv, hq⟩
    rw [Option.ite_none_right_eq_some] at hq
    obtain ⟨⟨hle, hlt⟩, hq⟩ := hq
    obtain rfl : v - numcodes = q := Option.some.inj hq
    rw [Nat.sub_add_cancel hle]
    exact ⟨hv, by omega⟩
  · rintro ⟨hv, hq⟩
    refine ⟨_, hv, ?_⟩
    rw [if_pos (by omega), Nat.add_sub_cancel]

theorem descend_append : descend t numcodes p (u ++ w) =
    (descend t numcodes p u).bind fun q => descend t numcodes q w := by
  induction u generalizing p with
  | nil => rfl
  | cons b u ih =>
    rw [List.cons_append, descend, descend, Option.bind_assoc]
    congr 1
    funext q
    exact ih

theorem descend_concat (h : descend t numcodes p u = some q) :
    descend t numcodes p (u ++ [b]) = child t numcodes q b := by
  rw [descend_append, h]
  show (child t numcodes q b).bind some = _
  exact Option.bind_fun_some _

theorem leads_concat (h : descend t numcodes p u = some q)
    (hentry : t[2 * q + b.toNat]? = some n) (hn : n < numcodes) :
    Leads t numcodes p (u ++ [b]) n := by
  induction u generalizing p with
  | nil =>
    obtain rfl : p = q := Option.some.inj h
    exact .inl ⟨rfl, hentry, hn⟩
  | cons a u ih =>
    obtain ⟨r, hr, hrest⟩ := Option.bind_eq_some_iff.mp h
    exact .inr ⟨r, hr, ih hrest⟩

/-- A word that leads to a symbol passes inner nodes only. -/
theorem Leads.descend_prefix (h : Leads t numcodes p (u ++ w) n) (hw : w ≠ []) :
    ∃ q, descend t numcodes p u = some q := by
  induction u generalizing p with
  | nil => exact ⟨p, rfl⟩
  | cons a u ih =>
    rcases h with ⟨hnil, _⟩ | ⟨r, hr, hrest⟩
    · exact absurd (List.append_eq_nil_iff.mp hnil).2 hw
    · obtain ⟨q, hq⟩ := ih hrest
      exact ⟨q, by rw [descend, hr]; exact hq⟩

/-- The filled entries of a table are entries of another one. -/
def Extends (t t' : List ℕ) : Prop :=
  ∀ i v : ℕ, t[i]? = some v → v ≠ unfilled → t'[i]? = some v

theorem Extends.child (h : Extends t t') (hroom : 2 * numcodes ≤ unfilled)
    (hc : child t numcodes p b = some q) : AuroraOS.child t' numcodes p b = some q := by
  rw [child_eq_some] at hc ⊢
  exact ⟨h _ _ hc.1 (by simp only [unfilled] at *; omega), hc.2⟩

theorem Extends.descend (h : Extends t t') (hroom : 2 * numcodes ≤ unfilled)
    (hd : descend t numcodes p u = some q) : AuroraOS.descend t' numcodes p u = some q := by
  induction u generalizing p with
  | nil => exact hd
  | cons a u ih =>
    obtain ⟨r, hr, hrest⟩ := Option.bind_eq_some_iff.mp hd
    rw [AuroraOS.descend, h.child hroom hr]
    exact ih hrest

theorem Extends.leads (h : Extends t t') (hroom : 2 * numcodes ≤ unfilled)
    (hl : Leads t numcodes p w n) : Leads t' numcodes p w n := by
  induction w generalizing p with
  | nil => exact hl
  | cons a w ih =>
    rcases hl with ⟨hnil, hentry, hn⟩ | ⟨r, hr, hrest⟩
    · exact .inl ⟨hnil, h _ _ hentry (by simp only [unfilled] at *; omega), hn⟩
    · exact .inr ⟨r, h.child hroom hr, ih hrest⟩

/-- The entries of the nodes do not overlap. -/
theorem entry_inj {a : Bool} (h : 2 * p + b.toNat = 2 * q + a.toNat) : p = q ∧ b = a := by
  cases a <;> cases b <;> simp only [Bool.toNat_true, Bool.toNat_false] at h
  · exact ⟨by omega, rfl⟩
  · omega
  · omega
  · exact ⟨by omega, rfl⟩

/-- An entry of a table with one other entry is that one or an old one. -/
theorem entry_set {x : ℕ} (k : ℕ) (a : Bool) (v : ℕ)
    (h : (t.set (2 * p + b.toNat) x)[2 * k + a.toNat]? = some v) :
    (k = p ∧ a = b ∧ v = x) ∨ t[2 * k + a.toNat]? = some v := by
  by_cases heq : 2 * p + b.toNat = 2 * k + a.toNat
  · obtain ⟨rfl, rfl⟩ := entry_inj heq
    rw [List.getElem?_set, if_pos rfl] at h
    split_ifs at h
    exact .inl ⟨rfl, rfl, (Option.some.inj h).symm⟩
  · rw [List.getElem?_set_ne heq] at h
    exact .inr h

theorem extends_set {i v : ℕ} (h : t[i]? = some unfilled) : Extends t (t.set i v) := by
  intro k w hk hw
  have hne : i ≠ k := by
    rintro rfl
    exact hw (Option.some.inj (hk.symm.trans h))
  rw [List.getElem?_set_ne hne, hk]

end Walk

/-! ## Decoding -/

namespace HuffmanTree

variable {tree : HuffmanTree} {bitstream : List UInt8} {inlength bp n p : ℕ} {w : List Bool}

/-- The tree decodes these words to these symbols. -/
def Decodes (tree : HuffmanTree) (S : Finset ℕ) (code : ℕ → List Bool) : Prop :=
  ∀ n ∈ S, Leads tree.tree2d tree.numcodes 0 (code n) n

theorem shiftLeft_or_bit (p : ℕ) (b : Bool) : p <<< 1 ||| b.toNat = 2 * p + b.toNat := by
  rw [← Nat.shiftLeft_add_eq_or_of_lt (by cases b <;> decide), Nat.shiftLeft_eq]
  omega

theorem decodeLoop_leads {fuel : ℕ} (h : Leads tree.tree2d tree.numcodes p w n)
    (hold : Holds bitstream bp w) (hend : bp + w.length ≤ 8 * (inlength + 1))
    (hfuel : w.length ≤ fuel) :
    decodeLoop tree bitstream inlength fuel bp p = .ok (n, bp + w.length) := by
  induction w generalizing bp p fuel with
  | nil => exact h.elim
  | cons b w ih =>
    rw [List.length_cons] at hend hfuel ⊢
    obtain ⟨fuel, rfl⟩ : ∃ f, fuel = f + 1 := ⟨fuel - 1, by omega⟩
    have hin : ¬(bp &&& 0x7 = 0 ∧ bp >>> 3 > inlength) := by
      rw [and_seven, shiftRight_three]
      omega
    rw [decodeLoop, if_neg hin, readBit_eq hold.1, ok_bind]
    show (readAt .tree2d tree.tree2d (p <<< 1 ||| b.toNat) >>= _) = _
    rw [shiftLeft_or_bit]
    rcases h with ⟨rfl, hentry, hn⟩ | ⟨q, hq, hrest⟩
    · rw [readAt_eq hentry, ok_bind, if_pos hn]
      rfl
    · obtain ⟨hentry, hlt⟩ := child_eq_some.mp hq
      rw [readAt_eq hentry, ok_bind, if_neg (by omega), Nat.add_sub_cancel,
        if_neg (by omega), ih hrest hold.2 (by omega) (by omega)]
      congr 2
      omega

/-- **A code in the stream is decoded to its symbol**, and the bit pointer moves behind it. -/
theorem Decodes.decodeSymbol {S : Finset ℕ} {code : ℕ → List Bool} (h : tree.Decodes S code)
    (hn : n ∈ S) (hold : Holds bitstream bp (code n))
    (hend : bp + (code n).length ≤ 8 * (inlength + 1)) :
    decodeSymbol tree bitstream inlength bp = .ok (n, bp + (code n).length) :=
  decodeLoop_leads (h n hn) hold hend (by rw [decodeFuel]; omega)

/-- The symbols of `n` calls of `huffman_decode_symbol`, one after the other. -/
def decodeSymbols (tree : HuffmanTree) (bitstream : List UInt8) (inlength : ℕ) :
    ℕ → ℕ → Except Stop (List ℕ × ℕ)
  | 0, bp => .ok ([], bp)
  | n + 1, bp => do
    let (symbol, bp) ← AuroraOS.decodeSymbol tree bitstream inlength bp
    let (symbols, bp) ← decodeSymbols tree bitstream inlength n bp
    .ok (symbol :: symbols, bp)

/-- The codes of some symbols are decoded one after the other. -/
theorem Decodes.decodeSymbols {S : Finset ℕ} {code : ℕ → List Bool} (h : tree.Decodes S code)
    {symbols : List ℕ} : ∀ {bp : ℕ}, (∀ n ∈ symbols, n ∈ S) →
      Holds bitstream bp (symbols.flatMap code) →
      bp + (symbols.flatMap code).length ≤ 8 * (inlength + 1) →
      tree.decodeSymbols bitstream inlength symbols.length bp =
        .ok (symbols, bp + (symbols.flatMap code).length) := by
  induction symbols with
  | nil => intro bp _ _ _; rfl
  | cons n symbols ih =>
    intro bp hmem hold hend
    rw [List.flatMap_cons, holds_append] at hold
    rw [List.flatMap_cons, List.length_append] at hend ⊢
    have hrest := ih (fun k hk => hmem k (List.mem_cons_of_mem n hk)) hold.2 (by omega)
    rw [List.length_cons, HuffmanTree.decodeSymbols,
      h.decodeSymbol (hmem n List.mem_cons_self) hold.1 (by omega), ok_bind]
    dsimp only
    rw [hrest, ok_bind, Nat.add_assoc]

end HuffmanTree

/-! ## The table under construction -/

/-- The table after the codes below `n`: `path` is the word of every inner node. -/
structure Built (numcodes : ℕ) (S : Finset ℕ) (code : ℕ → List Bool) (n : ℕ)
    (path : ℕ → List Bool) (t : List ℕ) (nodefilled : ℕ) : Prop where
  size : t.length = 2 * numcodes
  root : path 0 = []
  fresh : ∀ k (b : Bool) v, nodefilled < k → t[2 * k + b.toNat]? = some v → v = unfilled
  leaf : ∀ k (b : Bool) v, t[2 * k + b.toNat]? = some v → v < numcodes →
    v ∈ S ∧ v < n ∧ path k ++ [b] = code v
  node : ∀ k (b : Bool) v, t[2 * k + b.toNat]? = some v → numcodes ≤ v → v ≠ unfilled →
    ∃ j, v = j + numcodes ∧ j ≤ nodefilled ∧ path j = path k ++ [b]
  inner : ∀ j, j ≠ 0 → j ≤ nodefilled → path j ∈ inner S code
  reach : ∀ j ≤ nodefilled, descend t numcodes 0 (path j) = some j
  placed : ∀ m ∈ S, m < n → Leads t numcodes 0 (code m) m

namespace Built

variable {numcodes : ℕ} {S : Finset ℕ} {code : ℕ → List Bool} {n : ℕ} {path : ℕ → List Bool}
  {t : List ℕ} {nodefilled p : ℕ} {b : Bool} {u : List Bool}

/-- The empty table. -/
theorem empty (hpos : 0 < numcodes) (hroom : 2 * numcodes ≤ unfilled) :
    Built numcodes S code 0 (fun _ => []) (List.replicate (2 * numcodes) unfilled) 0 := by
  have hentry : ∀ i v : ℕ,
      (List.replicate (2 * numcodes) unfilled)[i]? = some v → v = unfilled := by
    intro i v h
    rw [List.getElem?_replicate] at h
    split_ifs at h
    exact (Option.some.inj h).symm
  refine ⟨List.length_replicate, rfl, fun k b v _ h => hentry _ v h, fun k b v h hv => ?_,
    fun k b v h _ hne => absurd (hentry _ v h) hne,
    fun j hne hle => absurd (Nat.le_zero.mp hle) hne,
    fun j hj => ?_, fun m _ hm => absurd hm (Nat.not_lt_zero m)⟩
  · have hval := hentry _ v h
    omega
  · rw [Nat.le_zero.mp hj]
    rfl

/-- A node is reached by its own word only. -/
theorem path_eq (h : Built numcodes S code n path t nodefilled) (hroom : 2 * numcodes ≤ unfilled) :
    ∀ {u : List Bool} {k : ℕ}, k ≤ nodefilled → descend t numcodes k u = some p →
      p ≤ nodefilled ∧ path p = path k ++ u
  | [], k, hk, hd => by
    obtain rfl : k = p := Option.some.inj hd
    exact ⟨hk, (List.append_nil _).symm⟩
  | b :: u, k, hk, hd => by
    obtain ⟨r, hr, hrest⟩ := Option.bind_eq_some_iff.mp hd
    obtain ⟨hentry, hlt⟩ := child_eq_some.mp hr
    obtain ⟨j, hj, hle, hpath⟩ :=
      h.node k b _ hentry (by omega) (by simp only [unfilled] at *; omega)
    obtain rfl : r = j := by omega
    obtain ⟨hp, heq⟩ := h.path_eq hroom hle hrest
    refine ⟨hp, ?_⟩
    rw [heq, hpath, List.append_assoc, List.singleton_append]

theorem path_of_descend (h : Built numcodes S code n path t nodefilled)
    (hroom : 2 * numcodes ≤ unfilled) (hd : descend t numcodes 0 u = some p) :
    p ≤ nodefilled ∧ path p = u := by
  have heq := h.path_eq hroom (Nat.zero_le _) hd
  rwa [h.root, List.nil_append] at heq

/-- There are no more nodes than proper prefixes of the codes. -/
theorem nodefilled_lt (h : Built numcodes S code n path t nodefilled)
    (hroot : [] ∈ PrefixCode.inner S code) : nodefilled < (PrefixCode.inner S code).card := by
  have hmaps : ∀ j ∈ Finset.range (nodefilled + 1), path j ∈ PrefixCode.inner S code := by
    intro j hj
    rw [Finset.mem_range] at hj
    by_cases hzero : j = 0
    · rw [hzero, h.root]
      exact hroot
    · exact h.inner j hzero (by omega)
  have hinj : Set.InjOn path (Finset.range (nodefilled + 1) : Set ℕ) := by
    intro i hi j hj heq
    rw [Finset.mem_coe, Finset.mem_range] at hi hj
    have hri := h.reach i (by omega)
    rw [heq, h.reach j (by omega)] at hri
    exact (Option.some.inj hri).symm
  have hcard := Finset.card_le_card_of_injOn path hmaps hinj
  rwa [Finset.card_range] at hcard

/-- When all codes are in the table, every proper prefix of a code has a node. -/
theorem card_inner_le (h : Built numcodes S code n path t nodefilled)
    (hroom : 2 * numcodes ≤ unfilled) (hall : ∀ m ∈ S, m < n) :
    (PrefixCode.inner S code).card ≤ nodefilled + 1 := by
  have hsub : PrefixCode.inner S code ⊆ (Finset.range (nodefilled + 1)).image path := by
    intro w hw
    obtain ⟨m, hm, ⟨v, hv⟩, hne⟩ := mem_inner.mp hw
    have hleads := h.placed m hm (hall m hm)
    rw [← hv] at hleads
    have hv0 : v ≠ [] := by
      rintro rfl
      exact hne (by rw [← hv, List.append_nil])
    obtain ⟨q, hq⟩ := hleads.descend_prefix hv0
    obtain ⟨hle, hpath⟩ := h.path_of_descend hroom hq
    exact Finset.mem_image.mpr ⟨q, Finset.mem_range.mpr (by omega), hpath⟩
  have hcard := (Finset.card_le_card hsub).trans Finset.card_image_le
  rwa [Finset.card_range] at hcard

/-- A code that is not used needs nothing. -/
theorem skip (h : Built numcodes S code n path t nodefilled) (hn : n ∉ S) :
    Built numcodes S code (n + 1) path t nodefilled := by
  refine ⟨h.size, h.root, h.fresh, fun k b v hv hlt => ?_, h.node, h.inner, h.reach,
    fun m hm hlt => ?_⟩
  · obtain ⟨hS, hvn, hpath⟩ := h.leaf k b v hv hlt
    exact ⟨hS, by omega, hpath⟩
  · refine h.placed m hm ?_
    rcases Nat.lt_succ_iff_lt_or_eq.mp hlt with hlt | rfl
    · exact hlt
    · exact absurd hm hn

/-- The last bit of a code: its symbol is put in place. -/
theorem place (h : Built numcodes S code n path t nodefilled) (hroom : 2 * numcodes ≤ unfilled)
    (hd : descend t numcodes 0 u = some p) (hslot : t[2 * p + b.toNat]? = some unfilled)
    (hn : n ∈ S) (hnc : n < numcodes) (hcode : code n = u ++ [b]) :
    Built numcodes S code (n + 1) path (t.set (2 * p + b.toNat) n) nodefilled := by
  obtain ⟨hp, hpath⟩ := h.path_of_descend hroom hd
  have hext := extends_set (v := n) hslot
  have hlt : 2 * p + b.toNat < t.length := (List.getElem?_eq_some_iff.mp hslot).1
  have hset : (t.set (2 * p + b.toNat) n)[2 * p + b.toNat]? = some n := by
    rw [List.getElem?_set_self hlt]
  have hentry := fun k (a : Bool) v => entry_set (t := t) (p := p) (b := b) (x := n) k a v
  refine ⟨by rw [List.length_set, h.size], h.root, fun k a v hk hv => ?_, fun k a v hv hvn => ?_,
    fun k a v hv hle hne => ?_, h.inner, fun j hj => hext.descend hroom (h.reach j hj),
    fun m hm hmn => ?_⟩
  · rcases hentry k a v hv with ⟨rfl, _⟩ | hv
    · omega
    · exact h.fresh k a v hk hv
  · rcases hentry k a v hv with ⟨rfl, rfl, rfl⟩ | hv
    · exact ⟨hn, Nat.lt_succ_self _, by rw [hpath, hcode]⟩
    · obtain ⟨hS, hlt, heq⟩ := h.leaf k a v hv hvn
      exact ⟨hS, by omega, heq⟩
  · rcases hentry k a v hv with ⟨_, _, rfl⟩ | hv
    · omega
    · exact h.node k a v hv hle hne
  · rcases Nat.lt_succ_iff_lt_or_eq.mp hmn with hmn | rfl
    · exact hext.leads hroom (h.placed m hm hmn)
    · rw [hcode]
      exact leads_concat (hext.descend hroom hd) hset hnc

/-- Another bit of a code: it gets a node of its own. -/
theorem alloc (h : Built numcodes S code n path t nodefilled) (hroom : 2 * numcodes ≤ unfilled)
    (hd : descend t numcodes 0 u = some p) (hslot : t[2 * p + b.toNat]? = some unfilled)
    (hlast : nodefilled + 2 ≤ numcodes) (hinner : u ++ [b] ∈ PrefixCode.inner S code) :
    Built numcodes S code n (Function.update path (nodefilled + 1) (u ++ [b]))
      (t.set (2 * p + b.toNat) (nodefilled + 1 + numcodes)) (nodefilled + 1) := by
  obtain ⟨hp, hpath⟩ := h.path_of_descend hroom hd
  have hext := extends_set (v := nodefilled + 1 + numcodes) hslot
  have hlt : 2 * p + b.toNat < t.length := (List.getElem?_eq_some_iff.mp hslot).1
  have hset : (t.set (2 * p + b.toNat) (nodefilled + 1 + numcodes))[2 * p + b.toNat]? =
      some (nodefilled + 1 + numcodes) := by
    rw [List.getElem?_set_self hlt]
  have hold : ∀ k, k ≤ nodefilled →
      Function.update path (nodefilled + 1) (u ++ [b]) k = path k := fun k hk =>
    Function.update_of_ne (by omega) _ _
  have hentry := fun k (a : Bool) v =>
    entry_set (t := t) (p := p) (b := b) (x := nodefilled + 1 + numcodes) k a v
  -- only nodes in use have entries that are filled
  have hused : ∀ k (a : Bool) (v : ℕ), t[2 * k + a.toNat]? = some v → v ≠ unfilled →
      k ≤ nodefilled := by
    intro k a v hv hne
    by_contra hk
    exact hne (h.fresh k a v (by omega) hv)
  refine ⟨by rw [List.length_set, h.size], (hold 0 (Nat.zero_le _)).trans h.root,
    fun k a v hk hv => ?_, fun k a v hv hvn => ?_, fun k a v hv hle hne => ?_,
    fun j hne hj => ?_, fun j hj => ?_,
    fun m hm hmn => hext.leads hroom (h.placed m hm hmn)⟩
  · rcases hentry k a v hv with ⟨rfl, _⟩ | hv
    · omega
    · exact h.fresh k a v (by omega) hv
  · rcases hentry k a v hv with ⟨_, _, rfl⟩ | hv
    · omega
    · rw [hold k (hused k a v hv (by simp only [unfilled] at *; omega))]
      exact h.leaf k a v hv hvn
  · rcases hentry k a v hv with ⟨rfl, rfl, rfl⟩ | hv
    · refine ⟨_, rfl, le_rfl, ?_⟩
      rw [Function.update_self, hold k hp, hpath]
    · obtain ⟨j, rfl, hj, heq⟩ := h.node k a v hv hle hne
      refine ⟨j, rfl, by omega, ?_⟩
      rw [hold j hj, hold k (hused k a _ hv hne), heq]
  · rcases Nat.le_succ_iff.mp hj with hj | rfl
    · rw [hold j hj]
      exact h.inner j hne hj
    · rw [Function.update_self]
      exact hinner
  · rcases Nat.le_succ_iff.mp hj with hj | rfl
    · rw [hold j hj]
      exact hext.descend hroom (h.reach j hj)
    · rw [Function.update_self, descend_concat (hext.descend hroom hd), child_eq_some]
      exact ⟨hset, by omega⟩

end Built

/-! ## The loops -/

namespace Filling

variable {numcodes : ℕ} {S : Finset ℕ} {code : ℕ → List Bool} {n : ℕ} {path : ℕ → List Bool}
  {s : Filling} {u w : List Bool}

/-- How the loops end: the codes below `n` are in the table, or there are more inner nodes
than the table has room for. -/
def Ends (numcodes : ℕ) (S : Finset ℕ) (code : ℕ → List Bool) (n : ℕ) (r : Except Stop Filling) :
    Prop :=
  (∃ s path, r = .ok s ∧ s.treepos = 0 ∧ s.nodefilled + 2 ≤ numcodes ∧
    Built numcodes S code n path s.tree2d s.nodefilled) ∨
  (r = malformed ∧ numcodes ≤ (PrefixCode.inner S code).card)

/-- **The inner loop puts one code into the table.**  `u` are the bits that are done. -/
theorem putCode_ends (h2 : 2 ≤ numcodes) (hroom : 2 * numcodes ≤ unfilled)
    (hfree : PrefixFree S code) (hn : n ∈ S)
    (hnc : n < numcodes) : ∀ {w u : List Bool} {s : Filling} {path : ℕ → List Bool}, w ≠ [] →
    code n = u ++ w → Built numcodes S code n path s.tree2d s.nodefilled →
    descend s.tree2d numcodes 0 u = some s.treepos →
    (s.nodefilled + 2 ≤ numcodes ∨ s.treepos = s.nodefilled) →
    Ends numcodes S code (n + 1) (s.putCode numcodes n w)
  | [], _, _, _, hne, _, _, _, _ => absurd rfl hne
  | b :: w, u, s, path, _, hcode, hB, hd, hlast => by
    obtain ⟨hp, hpath⟩ := hB.path_of_descend hroom hd
    have hroot : [] ∈ PrefixCode.inner S code :=
      mem_inner.mpr ⟨n, hn, List.nil_prefix, by rw [hcode]; simp⟩
    rw [putCode, putBit]
    by_cases hfull : s.treepos > numcodes - 2
    · have hcard := hB.nodefilled_lt hroot
      rw [if_pos hfull]
      exact .inr ⟨rfl, by omega⟩
    have hlt : 2 * s.treepos + b.toNat < s.tree2d.length := by
      have hb := b.toNat_le
      rw [hB.size]
      omega
    obtain ⟨v, hv⟩ : ∃ v, s.tree2d[2 * s.treepos + b.toNat]? = some v :=
      ⟨_, List.getElem?_eq_getElem hlt⟩
    rw [if_neg hfull, readAt_eq hv, ok_bind]
    have hlast' : s.nodefilled + 2 ≤ numcodes := by
      rcases hlast with h | h <;> omega
    by_cases hunfilled : v = unfilled
    · rw [hunfilled] at hv
      rw [if_pos hunfilled]
      cases w with
      | nil =>
        rw [List.isEmpty_nil, if_pos rfl, writeAt_eq hlt, ok_bind, ok_bind, putCode]
        exact .inl ⟨_, path, rfl, rfl, hlast', hB.place hroom hd hv hn hnc hcode⟩
      | cons c w =>
        have hinner : u ++ [b] ∈ PrefixCode.inner S code := by
          refine mem_inner.mpr ⟨n, hn, ⟨c :: w, ?_⟩, ?_⟩
          · rw [hcode, List.append_assoc, List.singleton_append]
          · rw [hcode]
            simp
        have hB' := hB.alloc hroom hd hv hlast' hinner
        rw [List.isEmpty_cons, if_neg Bool.false_ne_true, writeAt_eq hlt, ok_bind, ok_bind]
        refine putCode_ends h2 hroom hfree hn hnc (u := u ++ [b]) (List.cons_ne_nil _ _) ?_ hB' ?_
          (.inr rfl)
        · rw [hcode, List.append_assoc, List.singleton_append]
        · have hreach := hB'.reach _ le_rfl
          rwa [Function.update_self] at hreach
    · rw [if_neg hunfilled]
      rcases Nat.lt_or_ge v numcodes with hvn | hvn
      · -- another code would start this one
        obtain ⟨hvS, hlt', heq⟩ := hB.leaf s.treepos b v hv hvn
        have hpre : code v <+: code n := by
          rw [← heq, hpath, hcode]
          exact ⟨w, by rw [List.append_assoc, List.singleton_append]⟩
        exact absurd (hfree v hvS n hn hpre) (by omega)
      · obtain ⟨j, rfl, hj, heq⟩ := hB.node s.treepos b v hv hvn hunfilled
        have hj0 : j ≠ 0 := by
          rintro rfl
          rw [hB.root, hpath] at heq
          simp at heq
        have hjump : sub32 (j + numcodes) numcodes = j := by
          rw [sub32_of_le hvn (by simp only [unfilled] at *; omega), Nat.add_sub_cancel]
        have hd' : descend s.tree2d numcodes 0 (u ++ [b]) = some j := by
          rw [← hpath, ← heq]
          exact hB.reach j hj
        cases w with
        | nil =>
          -- this code would start another one
          obtain ⟨m, hm, hpre, hne⟩ := mem_inner.mp (hB.inner j hj0 hj)
          rw [heq, hpath, ← hcode] at hpre hne
          exact absurd (congrArg code (hfree n hn m hm hpre)) hne
        | cons c w =>
          rw [hjump, ok_bind]
          refine putCode_ends h2 hroom hfree hn hnc (List.cons_ne_nil _ _) ?_ hB hd'
            (.inl hlast')
          rw [hcode, List.append_assoc, List.singleton_append]

/-- **The outer loop puts the codes into the table**, one after the other. -/
theorem putCodes_ends (h2 : 2 ≤ numcodes) (hroom : 2 * numcodes ≤ unfilled)
    (hfree : PrefixFree S code) :
    ∀ {codes : List (ℕ × ℕ)} {n : ℕ} {s : Filling} {path : ℕ → List Bool},
    (∀ k l c, codes[k]? = some (l, c) → n + k < numcodes ∧
      (l = 0 ∧ n + k ∉ S ∨ l ≠ 0 ∧ n + k ∈ S ∧ code (n + k) = msb l c)) →
    Built numcodes S code n path s.tree2d s.nodefilled → s.treepos = 0 →
    s.nodefilled + 2 ≤ numcodes →
      Ends numcodes S code (n + codes.length) (s.putCodes numcodes n codes)
  | [], _, s, path, _, hB, hpos, hlast => .inl ⟨s, path, rfl, hpos, hlast, hB⟩
  | (l, c) :: codes, n, s, path, hcodes, hB, hpos, hlast => by
    have hnext : ∀ k l c, codes[k]? = some (l, c) → n + 1 + k < numcodes ∧
        (l = 0 ∧ n + 1 + k ∉ S ∨ l ≠ 0 ∧ n + 1 + k ∈ S ∧ code (n + 1 + k) = msb l c) := by
      intro k l c hk
      rw [Nat.add_right_comm, Nat.add_assoc]
      exact hcodes (k + 1) l c (List.getElem?_cons_succ.trans hk)
    obtain ⟨hn, hhead⟩ := hcodes 0 l c rfl
    rw [Nat.add_zero] at hn hhead
    have hlen : n + ((l, c) :: codes).length = n + 1 + codes.length := by
      rw [List.length_cons]
      omega
    rw [putCodes, hlen]
    rcases hhead with ⟨rfl, hS⟩ | ⟨hl, hS, hcode⟩
    · show Ends numcodes S code _ (s.putCodes numcodes (n + 1) codes)
      exact putCodes_ends h2 hroom hfree hnext (hB.skip hS) hpos hlast
    · have hne : msb l c ≠ [] := by
        intro h
        have := congrArg List.length h
        rw [length_msb] at this
        exact hl this
      rcases putCode_ends h2 hroom hfree hS hn hne (u := []) hcode hB (by rw [hpos]; rfl)
        (.inl hlast) with ⟨s', path', hs', hpos', hlast', hB'⟩ | ⟨hs', hcard⟩
      · rw [hs', ok_bind]
        exact putCodes_ends h2 hroom hfree hnext hB' hpos' hlast'
      · rw [hs']
        exact .inr ⟨rfl, hcard⟩

end Filling

/-! ## The codes -/

/-- The code length of a symbol. -/
def lenOf (bitlen : List ℕ) (n : ℕ) : ℕ := bitlen.getD n 0

/-- The symbols that have a code. -/
def used (bitlen : List ℕ) : Finset ℕ :=
  (Finset.range bitlen.length).filter fun n => lenOf bitlen n ≠ 0

/-- The code of a symbol: the canonical code of the lengths. -/
def codeOf (bitlen : List ℕ) (n : ℕ) : List Bool := canonical (used bitlen) (lenOf bitlen) n

section Codes

variable {bitlen : List ℕ} {n l : ℕ}

theorem lenOf_eq (h : bitlen[n]? = some l) : lenOf bitlen n = l := by
  rw [lenOf, List.getD_eq_getElem?_getD, h, Option.getD_some]

theorem lenOf_mem (h : n < bitlen.length) : lenOf bitlen n ∈ bitlen := by
  rw [lenOf_eq (List.getElem?_eq_getElem h)]
  exact List.getElem_mem h

theorem mem_used : n ∈ used bitlen ↔ n < bitlen.length ∧ lenOf bitlen n ≠ 0 := by
  rw [used, Finset.mem_filter, Finset.mem_range]

/-- The loop of step 1, from some counts on. -/
theorem foldlM_count (hlt : ∀ l ∈ bitlen, l < maxBitLength) : ∀ {blcount : List ℕ},
    blcount.length = maxBitLength → ∃ counts,
      bitlen.foldlM (fun blcount l => do
        let c ← readAt .blcount blcount l
        writeAt .blcount blcount l (c + 1)) blcount = Except.ok counts ∧
      counts.length = maxBitLength ∧ ∀ c, counts.getD c 0 = blcount.getD c 0 + bitlen.count c := by
  induction bitlen with
  | nil => intro blcount h; exact ⟨blcount, rfl, h, fun c => by rw [List.count_nil]; rfl⟩
  | cons l bitlen ih =>
    intro blcount hlen
    have hl : l < blcount.length := by
      rw [hlen]
      exact hlt l List.mem_cons_self
    have hset : (blcount.set l (blcount[l] + 1)).length = maxBitLength := by
      rw [List.length_set, hlen]
    obtain ⟨counts, hrun, hsize, hcount⟩ := ih (fun k hk => hlt k (List.mem_cons_of_mem l hk)) hset
    refine ⟨counts, ?_, hsize, fun c => ?_⟩
    · rw [List.foldlM_cons, readAt_eq (List.getElem?_eq_getElem hl), ok_bind, writeAt_eq hl,
        ok_bind, hrun]
    · rw [hcount, List.count_cons, List.getD_eq_getElem?_getD, List.getD_eq_getElem?_getD,
        List.getElem?_set]
      by_cases hc : l = c
      · subst hc
        rw [if_pos rfl, if_pos hl, List.getElem?_eq_getElem hl, beq_self_eq_true, if_pos rfl]
        simp only [Option.getD_some]
        omega
      · rw [if_neg hc, if_neg (by simpa using hc), Nat.add_zero]

theorem countLengths_ok (hlt : ∀ l ∈ bitlen, l < maxBitLength) : ∃ blcount,
    countLengths bitlen = .ok blcount ∧ ∀ c, blcount.getD c 0 = bitlen.count c := by
  obtain ⟨counts, hrun, _, hcount⟩ := foldlM_count hlt (List.length_replicate (a := 0))
  refine ⟨counts, hrun, fun c => ?_⟩
  rw [hcount, List.getD_eq_getElem?_getD, List.getElem?_replicate]
  split_ifs <;> simp

/-- A length that occurs, as a set of symbols. -/
theorem count_take (c : ℕ) (hn : n ≤ bitlen.length) : (bitlen.take n).count c =
    ((Finset.range n).filter fun m => lenOf bitlen m = c).card := by
  induction n with
  | zero => rfl
  | succ n ih =>
    have hget : bitlen[n]? = some bitlen[n] := List.getElem?_eq_getElem hn
    rw [List.take_add_one, hget, Option.toList_some, List.count_append, ih (by omega),
      Finset.range_add_one, Finset.filter_insert, lenOf_eq hget, List.count_singleton]
    by_cases hc : bitlen[n] = c
    · rw [if_pos hc, if_pos (by simpa using hc), Finset.card_insert_of_notMem (by simp)]
    · rw [if_neg hc, if_neg (by simpa using hc), Nat.add_zero]

/-- Step 2 sums up the shorter codes. -/
theorem firstCode_eq {blcount : List ℕ} (hcount : ∀ c, blcount.getD c 0 = bitlen.count c) (b : ℕ) :
    firstCode blcount b =
      ∑ m ∈ Finset.range bitlen.length with lenOf bitlen m < b, 2 ^ (b - lenOf bitlen m) := by
  induction b with
  | zero => simp [firstCode]
  | succ b ih =>
    have hsplit : (Finset.range bitlen.length).filter (fun m => lenOf bitlen m < b + 1) =
        (Finset.range bitlen.length).filter (fun m => lenOf bitlen m < b) ∪
          (Finset.range bitlen.length).filter fun m => lenOf bitlen m = b := by
      rw [← Finset.filter_or]
      exact Finset.filter_congr fun m _ => Nat.lt_succ_iff_lt_or_eq
    have hdisj : Disjoint ((Finset.range bitlen.length).filter fun m => lenOf bitlen m < b)
        ((Finset.range bitlen.length).filter fun m => lenOf bitlen m = b) :=
      Finset.disjoint_filter.mpr fun m _ hlt => hlt.ne
    have hshort : ∑ m ∈ Finset.range bitlen.length with lenOf bitlen m < b,
        2 ^ (b + 1 - lenOf bitlen m) =
          (∑ m ∈ Finset.range bitlen.length with lenOf bitlen m < b, 2 ^ (b - lenOf bitlen m)) *
            2 := by
      rw [Finset.sum_mul]
      apply Finset.sum_congr rfl
      intro m hm
      have hlt := (Finset.mem_filter.mp hm).2
      rw [← pow_succ]
      congr 1
      omega
    have hsame : ∑ m ∈ Finset.range bitlen.length with lenOf bitlen m = b,
        2 ^ (b + 1 - lenOf bitlen m) = bitlen.count b * 2 := by
      have hall := @count_take bitlen _ b le_rfl
      rw [List.take_length] at hall
      rw [hall, Finset.card_eq_sum_ones, Finset.sum_mul]
      apply Finset.sum_congr rfl
      intro m hm
      rw [(Finset.mem_filter.mp hm).2, Nat.add_sub_cancel_left]
      rfl
    rw [firstCode, ih, hcount, Nat.shiftLeft_eq, pow_one, hsplit, Finset.sum_union hdisj, hshort,
      hsame]
    ring

/-- Step 3 numbers the codes of one length. -/
theorem getElem?_tree1d {next : ℕ → ℕ} (hn : bitlen[n]? = some l) (hl : l ≠ 0) :
    (tree1d next bitlen)[n]? = some (next l + (bitlen.take n).count l) := by
  induction bitlen generalizing next n with
  | nil => cases hn
  | cons k bitlen ih =>
    cases n with
    | zero =>
      obtain rfl : k = l := Option.some.inj hn
      rw [tree1d, if_pos hl]
      rfl
    | succ n =>
      have hn' : bitlen[n]? = some l := hn
      rw [tree1d, List.take_succ_cons, List.count_cons]
      by_cases hk : k ≠ 0
      · rw [if_pos hk, List.getElem?_cons_succ, ih hn']
        by_cases hkl : k = l
        · subst hkl
          rw [Function.update_self, beq_self_eq_true, if_pos rfl]
          congr 1
          omega
        · rw [Function.update_of_ne (Ne.symm hkl), if_neg (by simpa using hkl), Nat.add_zero]
      · have hkl : k ≠ l := by
          rintro rfl
          exact hk hl
        rw [if_neg hk, List.getElem?_cons_succ, ih hn', if_neg (by simpa using hkl), Nat.add_zero]

theorem length_tree1d (next : ℕ → ℕ) (bitlen : List ℕ) :
    (tree1d next bitlen).length = bitlen.length := by
  induction bitlen generalizing next with
  | nil => rfl
  | cons k bitlen ih =>
    rw [tree1d]
    split_ifs <;> rw [List.length_cons, ih, List.length_cons]

/-- The number of a code, when the symbols without a code are counted with the others. -/
theorem codeValue_range (hn : n < bitlen.length) :
    codeValue (Finset.range bitlen.length) (lenOf bitlen) n =
      (∑ m ∈ Finset.range bitlen.length with lenOf bitlen m < lenOf bitlen n,
        2 ^ (lenOf bitlen n - lenOf bitlen m)) + (bitlen.take n).count (lenOf bitlen n) := by
  have hsplit : (Finset.range bitlen.length).filter (fun m => Before (lenOf bitlen) m n) =
      (Finset.range bitlen.length).filter (fun m => lenOf bitlen m < lenOf bitlen n) ∪
        (Finset.range n).filter fun m => lenOf bitlen m = lenOf bitlen n := by
    ext m
    simp only [Finset.mem_filter, Finset.mem_union, Finset.mem_range]
    constructor
    · rintro ⟨hm, h | ⟨heq, hlt⟩⟩
      · exact .inl ⟨hm, h⟩
      · exact .inr ⟨hlt, heq⟩
    · rintro (⟨hm, h⟩ | ⟨hlt, heq⟩)
      · exact ⟨hm, .inl h⟩
      · exact ⟨by omega, .inr ⟨heq, hlt⟩⟩
  have hdisj : Disjoint
      ((Finset.range bitlen.length).filter fun m => lenOf bitlen m < lenOf bitlen n)
      ((Finset.range n).filter fun m => lenOf bitlen m = lenOf bitlen n) := by
    rw [Finset.disjoint_left]
    intro m hm hm'
    exact absurd (Finset.mem_filter.mp hm').2 (Finset.mem_filter.mp hm).2.ne
  rw [codeValue, hsplit, Finset.sum_union hdisj, count_take _ hn.le, Finset.card_eq_sum_ones]
  congr 1
  apply Finset.sum_congr rfl
  intro m hm
  rw [(Finset.mem_filter.mp hm).2, Nat.sub_self, pow_zero]

/-- Counting the symbols without a code changes no bit of a code. -/
theorem msb_codeValue_range (hn : n ∈ used bitlen) :
    msb (lenOf bitlen n) (codeValue (Finset.range bitlen.length) (lenOf bitlen) n) =
      codeOf bitlen n := by
  have hlen : 0 < lenOf bitlen n := Nat.pos_of_ne_zero (mem_used.mp hn).2
  have hsplit : (Finset.range bitlen.length).filter (fun m => Before (lenOf bitlen) m n) =
      (used bitlen).filter (fun m => Before (lenOf bitlen) m n) ∪
        (Finset.range bitlen.length).filter fun m => lenOf bitlen m = 0 := by
    ext m
    simp only [Finset.mem_filter, Finset.mem_union, mem_used, Finset.mem_range]
    constructor
    · rintro ⟨hm, hb⟩
      by_cases hz : lenOf bitlen m = 0
      · exact .inr ⟨hm, hz⟩
      · exact .inl ⟨⟨hm, hz⟩, hb⟩
    · rintro (⟨⟨hm, _⟩, hb⟩ | ⟨hm, hz⟩)
      · exact ⟨hm, hb⟩
      · exact ⟨hm, .inl (by omega)⟩
  have hdisj : Disjoint ((used bitlen).filter fun m => Before (lenOf bitlen) m n)
      ((Finset.range bitlen.length).filter fun m => lenOf bitlen m = 0) := by
    rw [Finset.disjoint_left]
    intro m hm hm'
    exact (mem_used.mp (Finset.mem_filter.mp hm).1).2 (Finset.mem_filter.mp hm').2
  have hzeros : ∑ m ∈ Finset.range bitlen.length with lenOf bitlen m = 0,
      2 ^ (lenOf bitlen n - lenOf bitlen m) =
        ((Finset.range bitlen.length).filter fun m => lenOf bitlen m = 0).card *
          2 ^ lenOf bitlen n := by
    rw [Finset.card_eq_sum_ones, Finset.sum_mul]
    apply Finset.sum_congr rfl
    intro m hm
    rw [(Finset.mem_filter.mp hm).2, Nat.sub_zero, Nat.one_mul]
  rw [codeOf, canonical, ← msb_mod, ← msb_mod (v := codeValue (used bitlen) _ _), codeValue, hsplit,
    Finset.sum_union hdisj, hzeros, Nat.add_mul_mod_self_right, codeValue]

end Codes

/-! ## The tree -/

section Tree

variable {numcodes maxbitlen : ℕ} {bitlen : List ℕ}

/-- The lengths do not need more codes than there are. -/
def NotOversubscribed (maxbitlen : ℕ) (bitlen : List ℕ) : Prop :=
  space (used bitlen) (lenOf bitlen) maxbitlen ≤ 2 ^ maxbitlen

instance (maxbitlen : ℕ) (bitlen : List ℕ) : Decidable (NotOversubscribed maxbitlen bitlen) :=
  inferInstanceAs (Decidable (_ ≤ _))

/-- The codes that the loop of step 4 gets are the canonical ones. -/
theorem zip_tree1d {blcount : List ℕ} (hcount : ∀ c, blcount.getD c 0 = bitlen.count c)
    (hmax : ∀ l ∈ bitlen, l ≤ maxbitlen) (k l c : ℕ)
    (h : (bitlen.zip (tree1d (nextcode blcount maxbitlen) bitlen))[k]? = some (l, c)) :
    k < bitlen.length ∧
      (l = 0 ∧ k ∉ used bitlen ∨ l ≠ 0 ∧ k ∈ used bitlen ∧ codeOf bitlen k = msb l c) := by
  rw [List.getElem?_zip_eq_some] at h
  have hl : bitlen[k]? = some l := h.1
  have hc : (tree1d (nextcode blcount maxbitlen) bitlen)[k]? = some c := h.2
  have hk : k < bitlen.length := (List.getElem?_eq_some_iff.mp hl).1
  have hlen := lenOf_eq hl
  refine ⟨hk, ?_⟩
  by_cases h0 : l = 0
  · exact .inl ⟨h0, fun hmem => (mem_used.mp hmem).2 (hlen.trans h0)⟩
  · have hmem : k ∈ used bitlen := mem_used.mpr ⟨hk, by rw [hlen]; exact h0⟩
    have hle : l ≤ maxbitlen := hmax l (List.mem_of_getElem? hl)
    rw [getElem?_tree1d hl h0, nextcode, if_pos hle, firstCode_eq hcount] at hc
    refine .inr ⟨h0, hmem, ?_⟩
    rw [← msb_codeValue_range hmem, codeValue_range hk, hlen, ← Option.some.inj hc]

/-- Removing the marks keeps what is filled in. -/
theorem extends_clear (t : List ℕ) : Extends t (t.map fun v => if v = unfilled then 0 else v) := by
  intro i v hi hv
  rw [List.getElem?_map, hi, Option.map_some, if_neg hv]

/-- **The tree is built exactly when its inner nodes fit**, and then it decodes the canonical
code of the lengths. -/
theorem createLengths_eq (h2 : 2 ≤ numcodes) (hroom : 2 * numcodes ≤ unfilled)
    (hlen : bitlen.length = numcodes) (hmax : ∀ l ∈ bitlen, l ≤ maxbitlen)
    (hlt : ∀ l ∈ bitlen, l < maxBitLength) (hspace : NotOversubscribed maxbitlen bitlen) :
    if (inner (used bitlen) (codeOf bitlen)).card < numcodes then
      ∃ tree, createLengths numcodes maxbitlen bitlen = .ok tree ∧ tree.numcodes = numcodes ∧
        tree.Decodes (used bitlen) (codeOf bitlen)
    else createLengths numcodes maxbitlen bitlen = malformed := by
  have hd : ∀ n ∈ used bitlen, lenOf bitlen n ≤ maxbitlen := fun n hn =>
    hmax _ (lenOf_mem (mem_used.mp hn).1)
  have hfree : PrefixFree (used bitlen) (codeOf bitlen) := canonical_prefixFree hd hspace
  obtain ⟨blcount, hblcount, hcount⟩ := countLengths_ok hlt
  have hends := Filling.putCodes_ends h2 hroom hfree (n := 0)
    (s := ⟨List.replicate (2 * numcodes) unfilled, 0, 0⟩)
    (fun k l c hk => by
      rw [Nat.zero_add, ← hlen]
      exact zip_tree1d hcount hmax k l c hk)
    (Built.empty (by omega) hroom) rfl h2
  rw [List.length_zip, length_tree1d, Nat.min_self, Nat.zero_add, hlen] at hends
  rw [createLengths, hblcount, ok_bind]
  rcases hends with ⟨s, path, hs, _, hlast, hB⟩ | ⟨hs, hcard⟩
  · have hcard := hB.card_inner_le hroom fun m hm => by
      rw [← hlen]
      exact (mem_used.mp hm).1
    rw [if_pos (by omega)]
    refine ⟨_, by rw [hs, ok_bind], rfl, fun n hn => ?_⟩
    refine (extends_clear s.tree2d).leads hroom (hB.placed n hn ?_)
    rw [← hlen]
    exact (mem_used.mp hn).1
  · rw [if_neg (by omega), hs]
    rfl

/-- **A complete code always fits.** -/
theorem createLengths_complete (h2 : 2 ≤ numcodes) (hroom : 2 * numcodes ≤ unfilled)
    (hlen : bitlen.length = numcodes) (hmax : ∀ l ∈ bitlen, l ≤ maxbitlen)
    (hlt : ∀ l ∈ bitlen, l < maxBitLength)
    (hspace : space (used bitlen) (lenOf bitlen) maxbitlen = 2 ^ maxbitlen) :
    ∃ tree, createLengths numcodes maxbitlen bitlen = .ok tree ∧ tree.numcodes = numcodes ∧
      tree.Decodes (used bitlen) (codeOf bitlen) := by
  have hd : ∀ n ∈ used bitlen, lenOf bitlen n ≤ maxbitlen := fun n hn =>
    hmax _ (lenOf_mem (mem_used.mp hn).1)
  have hfree : PrefixFree (used bitlen) (codeOf bitlen) := canonical_prefixFree hd hspace.le
  have hcomplete : Complete maxbitlen (used bitlen) (codeOf bitlen) := canonical_complete hspace
  have hinner := hcomplete.card_inner_lt hfree fun n hn => by
    rw [codeOf, length_canonical]
    exact hd n hn
  have hused : (used bitlen).card ≤ numcodes := by
    have hle := Finset.card_filter_le (Finset.range bitlen.length) fun n => lenOf bitlen n ≠ 0
    rw [Finset.card_range] at hle
    exact hle.trans hlen.le
  have hbuilt := createLengths_eq h2 hroom hlen hmax hlt hspace.le
  rwa [if_pos (by omega)] at hbuilt

theorem createLengths_complete_three : space (used [1, 2, 2]) (lenOf [1, 2, 2]) 2 = 2 ^ 2 ∧
    ∃ tree, createLengths 3 2 [1, 2, 2] = .ok tree ∧ tree.numcodes = 3 ∧
      tree.Decodes (used [1, 2, 2]) (codeOf [1, 2, 2]) :=
  ⟨by decide, createLengths_complete (by decide) (by decide) rfl (by decide) (by decide)
    (by decide)⟩

/-- **Huffman coding is undone by the decoder.**  Lengths that are not oversubscribed make a tree
exactly when the inner nodes of their code fit the table; then every sequence of symbols is read
back from its codes, wherever they stand in a stream, and otherwise the lengths are refused. -/
theorem huffman_roundTrip (h2 : 2 ≤ numcodes) (hroom : 2 * numcodes ≤ unfilled)
    (hlen : bitlen.length = numcodes) (hmax : ∀ l ∈ bitlen, l ≤ maxbitlen)
    (hlt : ∀ l ∈ bitlen, l < maxBitLength) (hspace : NotOversubscribed maxbitlen bitlen) :
    if (inner (used bitlen) (codeOf bitlen)).card < numcodes then
      ∃ tree, createLengths numcodes maxbitlen bitlen = .ok tree ∧
        ∀ (symbols : List ℕ) (bitstream : List UInt8) (bp inlength : ℕ),
          (∀ n ∈ symbols, n ∈ used bitlen) →
          Holds bitstream bp (symbols.flatMap (codeOf bitlen)) →
          bp + (symbols.flatMap (codeOf bitlen)).length ≤ 8 * (inlength + 1) →
          tree.decodeSymbols bitstream inlength symbols.length bp =
            .ok (symbols, bp + (symbols.flatMap (codeOf bitlen)).length)
    else createLengths numcodes maxbitlen bitlen = malformed := by
  have hbuilt := createLengths_eq h2 hroom hlen hmax hlt hspace
  by_cases hfit : (inner (used bitlen) (codeOf bitlen)).card < numcodes
  · rw [if_pos hfit] at hbuilt ⊢
    obtain ⟨tree, htree, _, hdecodes⟩ := hbuilt
    exact ⟨tree, htree, fun symbols bitstream bp inlength => hdecodes.decodeSymbols⟩
  · rwa [if_neg hfit] at hbuilt ⊢

/-- Three symbols with the codes `0`, `10` and `11`. -/
theorem huffman_roundTrip_three : NotOversubscribed 2 [1, 2, 2] ∧
    ∃ tree, createLengths 3 2 [1, 2, 2] = .ok tree ∧
      tree.decodeSymbols [0b1101] 1 3 0 = .ok ([1, 2, 0], 5) := by
  have hspace : NotOversubscribed 2 [1, 2, 2] := by decide
  have hfit : (inner (used [1, 2, 2]) (codeOf [1, 2, 2])).card < 3 := by decide
  have hbuilt := @huffman_roundTrip 3 2 [1, 2, 2] (by decide) (by decide) rfl (by decide)
    (by decide) hspace
  rw [if_pos hfit] at hbuilt
  obtain ⟨tree, htree, hdecode⟩ := hbuilt
  have hcodes : [1, 2, 0].flatMap (codeOf [1, 2, 2]) = [true, false, true, true, false] := by
    decide
  have hread := hdecode [1, 2, 0] [0b1101] 0 1 (by decide)
  rw [hcodes] at hread
  exact ⟨hspace, tree, htree, hread ⟨rfl, rfl, rfl, rfl, rfl, trivial⟩ (by decide)⟩

/-! ## Accesses -/

namespace Filling

/-- A step on the table stays in it, and keeps its size. -/
theorem putBit_size {n : ℕ} {last : Bool} {b : Bool} {s : Filling} (h2 : 2 ≤ numcodes)
    (hsize : s.tree2d.length = 2 * numcodes) :
    s.putBit numcodes n last b.toNat = malformed ∨
      ∃ s', s.putBit numcodes n last b.toNat = .ok s' ∧ s'.tree2d.length = 2 * numcodes := by
  have hb := b.toNat_le
  rw [putBit]
  by_cases hpos : s.treepos > numcodes - 2
  · rw [if_pos hpos]
    exact .inl rfl
  have hlt : 2 * s.treepos + b.toNat < s.tree2d.length := by omega
  rw [if_neg hpos, readAt_of_lt hlt, ok_bind]
  by_cases hfilled : s.tree2d[2 * s.treepos + b.toNat] = unfilled
  · rw [if_pos hfilled]
    cases last with
    | true =>
      rw [if_pos rfl, writeAt_eq hlt]
      exact .inr ⟨_, rfl, by rw [List.length_set, hsize]⟩
    | false =>
      rw [if_neg Bool.false_ne_true, writeAt_eq hlt]
      exact .inr ⟨_, rfl, by rw [List.length_set, hsize]⟩
  · rw [if_neg hfilled]
    exact .inr ⟨_, rfl, hsize⟩

theorem putCode_size {n : ℕ} (h2 : 2 ≤ numcodes) {w : List Bool} :
    ∀ {s : Filling}, s.tree2d.length = 2 * numcodes → s.putCode numcodes n w = malformed ∨
      ∃ s', s.putCode numcodes n w = .ok s' ∧ s'.tree2d.length = 2 * numcodes := by
  induction w with
  | nil => intro s hsize; exact .inr ⟨s, rfl, hsize⟩
  | cons b w ih =>
    intro s hsize
    rw [putCode]
    rcases putBit_size h2 hsize (n := n) with h | ⟨s', h, hsize'⟩
    · rw [h]
      exact .inl rfl
    · rw [h, ok_bind]
      exact ih hsize'

theorem putCodes_size (h2 : 2 ≤ numcodes) {codes : List (ℕ × ℕ)} :
    ∀ {n : ℕ} {s : Filling}, s.tree2d.length = 2 * numcodes →
      s.putCodes numcodes n codes = malformed ∨
        ∃ s', s.putCodes numcodes n codes = .ok s' ∧ s'.tree2d.length = 2 * numcodes := by
  induction codes with
  | nil => intro n s hsize; exact .inr ⟨s, rfl, hsize⟩
  | cons p codes ih =>
    intro n s hsize
    obtain ⟨l, c⟩ := p
    rw [putCodes]
    rcases putCode_size (n := n) h2 (w := msb l c) hsize with h | ⟨s', h, hsize'⟩
    · rw [h]
      exact .inl rfl
    · rw [h, ok_bind]
      exact ih hsize'

end Filling

/-- A length that `blcount` has no entry for. -/
theorem foldlM_outOfBounds (hex : ∃ l ∈ bitlen, maxBitLength ≤ l) : ∀ {blcount : List ℕ},
    blcount.length = maxBitLength →
      bitlen.foldlM (fun blcount l => do
        let c ← readAt .blcount blcount l
        writeAt .blcount blcount l (c + 1)) blcount = Except.error (Stop.outOfBounds .blcount) := by
  induction bitlen with
  | nil => exact absurd hex (by simp)
  | cons k bitlen ih =>
    intro blcount hlen
    rw [List.foldlM_cons]
    rcases Nat.lt_or_ge k blcount.length with hk | hk
    · have hrest : ∃ l ∈ bitlen, maxBitLength ≤ l := by
        obtain ⟨l, hl, hle⟩ := hex
        rcases List.mem_cons.mp hl with rfl | hl
        · omega
        · exact ⟨l, hl, hle⟩
      rw [readAt_of_lt hk, ok_bind, writeAt_eq hk, ok_bind]
      exact ih hrest (by rw [List.length_set, hlen])
    · rw [readAt, List.getElem?_eq_none hk]
      rfl

/-- **The arrays are left exactly for a code length that `blcount` has no entry for.** -/
theorem createLengths_outOfBounds_iff (h2 : 2 ≤ numcodes) :
    createLengths numcodes maxbitlen bitlen = .error (.outOfBounds .blcount) ↔
      ∃ l ∈ bitlen, maxBitLength ≤ l := by
  constructor
  · intro h
    by_contra hlt
    push Not at hlt
    obtain ⟨blcount, hblcount, _⟩ := countLengths_ok hlt
    rw [createLengths, hblcount, ok_bind] at h
    rcases Filling.putCodes_size h2 (n := 0)
      (s := ⟨List.replicate (2 * numcodes) unfilled, 0, 0⟩) List.length_replicate with
      hs | ⟨s, hs, _⟩
    · rw [hs] at h
      cases h
    · rw [hs] at h
      cases h
  · intro hex
    rw [createLengths, countLengths, foldlM_outOfBounds hex List.length_replicate]
    rfl

/-- Codes of 15 bits are allowed by the format. -/
theorem createLengths_outOfBounds_fifteen :
    createLengths 3 15 [1, 15, 15] = .error (.outOfBounds .blcount) :=
  (createLengths_outOfBounds_iff (by decide)).mpr ⟨15, by decide, le_rfl⟩

end Tree

end AuroraOS
