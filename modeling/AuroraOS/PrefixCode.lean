/-
# Prefix codes

A library for binary prefix codes.  Below a depth `d`, a word of length `l` covers the
`2 ^ (d - l)` numbers of `d` bits that start with it; a code is free of prefixes when these
intervals are apart, and complete when they fill up all numbers.  The canonical code of given
word lengths lays the intervals side by side, shorter words first.
-/
import AuroraOS.BitStream

namespace PrefixCode

open BitStream

variable {u v w : List Bool} {d x : ℕ}

/-! ## Words as intervals -/

/-- A prefix is a quotient. -/
theorem prefix_iff_div :
    u <+: w ↔ u.length ≤ w.length ∧ ofMsb w / 2 ^ (w.length - u.length) = ofMsb u := by
  have hsplit : ∀ t s : List Bool, ofMsb (t ++ s) / 2 ^ s.length = ofMsb t := by
    intro t s
    rw [ofMsb_append, Nat.mul_comm, Nat.mul_add_div (Nat.two_pow_pos _),
      Nat.div_eq_of_lt (ofMsb_lt s), Nat.add_zero]
  constructor
  · rintro ⟨t, rfl⟩
    refine ⟨by simp, ?_⟩
    rw [List.length_append, Nat.add_sub_cancel_left, hsplit]
  · rintro ⟨hlen, hdiv⟩
    have htake : ofMsb (w.take u.length) = ofMsb u := by
      rw [← hdiv, ← hsplit (w.take u.length) (w.drop u.length), List.take_append_drop,
        List.length_drop]
    have heq : w.take u.length = u :=
      ofMsb_injective (by rw [List.length_take, Nat.min_eq_left hlen]) htake
    rw [← heq]
    exact List.take_prefix _ _

/-- The first number that starts with the word. -/
def low (d : ℕ) (w : List Bool) : ℕ := ofMsb w * 2 ^ (d - w.length)

/-- The numbers of `d` bits that start with the word. -/
def cover (d : ℕ) (w : List Bool) : Finset ℕ := Finset.Ico (low d w) (low d w + 2 ^ (d - w.length))

theorem mem_cover : x ∈ cover d w ↔ x / 2 ^ (d - w.length) = ofMsb w := by
  rw [cover, Finset.mem_Ico, low, Nat.div_eq_iff (Nat.two_pow_pos _)]
  have hpos := Nat.two_pow_pos (d - w.length)
  omega

theorem low_mem_cover (d : ℕ) (w : List Bool) : low d w ∈ cover d w :=
  Finset.mem_Ico.mpr ⟨le_rfl, Nat.lt_add_of_pos_right (Nat.two_pow_pos _)⟩

@[simp] theorem card_cover (d : ℕ) (w : List Bool) : (cover d w).card = 2 ^ (d - w.length) := by
  rw [cover, Nat.card_Ico, Nat.add_sub_cancel_left]

theorem cover_subset (h : w.length ≤ d) : cover d w ⊆ Finset.range (2 ^ d) := by
  intro x hx
  have hw := ofMsb_lt w
  rw [mem_cover] at hx
  rw [← hx, Nat.div_lt_iff_lt_mul (Nat.two_pow_pos _), ← pow_add, Nat.add_sub_cancel' h] at hw
  exact Finset.mem_range.mpr hw

/-- Of two words that start the same number, the shorter one starts the other. -/
theorem prefix_of_mem_cover (hu : x ∈ cover d u) (hw : x ∈ cover d w) (hle : u.length ≤ w.length)
    (hwd : w.length ≤ d) : u <+: w := by
  rw [mem_cover] at hu hw
  rw [prefix_iff_div]
  refine ⟨hle, ?_⟩
  rw [← hw, ← hu, Nat.div_div_eq_div_mul, ← pow_add]
  congr 2
  omega

/-! ## Codes without prefixes -/

variable {ι : Type*} {S : Finset ι} {code : ι → List Bool}

/-- No word of the code starts another one. -/
def PrefixFree (S : Finset ι) (code : ι → List Bool) : Prop :=
  ∀ m ∈ S, ∀ n ∈ S, code m <+: code n → m = n

/-- The words of the code fill up all numbers of `d` bits. -/
def Complete (d : ℕ) (S : Finset ι) (code : ι → List Bool) : Prop :=
  ∑ n ∈ S, 2 ^ (d - (code n).length) = 2 ^ d

/-- A code with disjoint intervals is free of prefixes, and the other way round. -/
theorem PrefixFree.disjoint (hfree : PrefixFree S code) (hlen : ∀ n ∈ S, (code n).length ≤ d) :
    (S : Set ι).PairwiseDisjoint fun n => cover d (code n) := by
  intro m hm n hn hne
  show Disjoint (cover d (code m)) (cover d (code n))
  rw [Finset.disjoint_left]
  intro x hxm hxn
  rcases Nat.le_total (code m).length (code n).length with hle | hle
  · exact hne (hfree m hm n hn (prefix_of_mem_cover hxm hxn hle (hlen n hn)))
  · exact hne (hfree n hn m hm (prefix_of_mem_cover hxn hxm hle (hlen m hm))).symm

/-- **A complete code decides every word**: it starts a word of the code, or the other way
round. -/
theorem Complete.comparable (hall : Complete d S code) (hfree : PrefixFree S code)
    (hlen : ∀ n ∈ S, (code n).length ≤ d) (hw : w.length ≤ d) :
    ∃ n ∈ S, code n <+: w ∨ w <+: code n := by
  have hsub : S.biUnion (fun n => cover d (code n)) ⊆ Finset.range (2 ^ d) :=
    Finset.biUnion_subset.mpr fun n hn => cover_subset (hlen n hn)
  have hcard : (S.biUnion fun n => cover d (code n)).card = 2 ^ d := by
    rw [Finset.card_biUnion (hfree.disjoint hlen), ← hall]
    exact Finset.sum_congr rfl fun n _ => card_cover d _
  have hfull : S.biUnion (fun n => cover d (code n)) = Finset.range (2 ^ d) :=
    Finset.eq_of_subset_of_card_le hsub (by rw [Finset.card_range, hcard])
  have hmem : low d w ∈ S.biUnion fun n => cover d (code n) := by
    rw [hfull]
    exact cover_subset hw (low_mem_cover d w)
  obtain ⟨n, hn, hx⟩ := Finset.mem_biUnion.mp hmem
  refine ⟨n, hn, ?_⟩
  rcases Nat.le_total (code n).length w.length with hle | hle
  · exact .inl (prefix_of_mem_cover hx (low_mem_cover d w) hle hw)
  · exact .inr (prefix_of_mem_cover (low_mem_cover d w) hx hle (hlen n hn))

/-- The words that properly start a word of the code: the inner nodes of its tree. -/
def inner (S : Finset ι) (code : ι → List Bool) : Finset (List Bool) :=
  S.biUnion fun n => (code n).inits.toFinset.erase (code n)

theorem mem_inner : w ∈ inner S code ↔ ∃ n ∈ S, w <+: code n ∧ w ≠ code n := by
  simp only [inner, Finset.mem_biUnion, Finset.mem_erase, List.mem_toFinset, List.mem_inits]
  exact exists_congr fun n => and_congr_right fun _ => and_comm

/-- Below an inner node of a complete code stand an inner node or a word of the code. -/
theorem Complete.child (hall : Complete d S code) (hfree : PrefixFree S code)
    (hlen : ∀ n ∈ S, (code n).length ≤ d) (hw : w ∈ inner S code) (b : Bool) :
    w ++ [b] ∈ inner S code ∨ ∃ n ∈ S, code n = w ++ [b] := by
  obtain ⟨m, hm, hpre, hne⟩ := mem_inner.mp hw
  have hlt : w.length < (code m).length := by
    rcases Nat.lt_or_ge w.length (code m).length with h | h
    · exact h
    · exact absurd (hpre.eq_of_length_le h) hne
  have hwd : (w ++ [b]).length ≤ d := by
    have := hlen m hm
    rw [List.length_append, List.length_singleton]
    omega
  obtain ⟨n, hn, hcmp⟩ := hall.comparable hfree hlen hwd
  by_cases heq : code n = w ++ [b]
  · exact .inr ⟨n, hn, heq⟩
  rcases hcmp with hcmp | hcmp
  · -- a word of the code that starts `w` would start the word below `w`, too
    rcases List.prefix_concat_iff.mp hcmp with h | h
    · exact absurd h heq
    · have hmn := hfree n hn m hm (h.trans hpre)
      subst hmn
      exact absurd (hpre.eq_of_length_le h.length_le) hne
  · exact .inl (mem_inner.mpr ⟨n, hn, hcmp, fun h => heq h.symm⟩)

/-- **A complete code has fewer inner nodes than words.** -/
theorem Complete.card_inner_lt (hall : Complete d S code) (hfree : PrefixFree S code)
    (hlen : ∀ n ∈ S, (code n).length ≤ d) : (inner S code).card < S.card := by
  by_cases hroot : [] ∈ inner S code
  · let below : List Bool × Bool → List Bool := fun p => p.1 ++ [p.2]
    have hinj : Function.Injective below := by
      rintro ⟨p, a⟩ ⟨q, b⟩ h
      obtain ⟨h1, h2⟩ := List.append_inj' h rfl
      exact Prod.ext h1 (List.singleton_inj.mp h2)
    have hsub : (inner S code ×ˢ (Finset.univ : Finset Bool)).image below ⊆
        (inner S code ∪ S.image code).erase [] := by
      intro x hx
      obtain ⟨⟨p, b⟩, hp, rfl⟩ := Finset.mem_image.mp hx
      have hp' : p ∈ inner S code := (Finset.mem_product.mp hp).1
      refine Finset.mem_erase.mpr ⟨by simp [below], Finset.mem_union.mpr ?_⟩
      rcases hall.child hfree hlen hp' b with h | ⟨n, hn, h⟩
      · exact .inl h
      · exact .inr (Finset.mem_image.mpr ⟨n, hn, h⟩)
    have hcard := Finset.card_le_card hsub
    rw [Finset.card_image_of_injective _ hinj, Finset.card_product, Finset.card_univ,
      Fintype.card_bool, Finset.card_erase_of_mem (Finset.mem_union_left _ hroot)] at hcard
    have hunion := Finset.card_union_le (inner S code) (S.image code)
    have himage := Finset.card_image_le (s := S) (f := code)
    have hpos := Finset.card_pos.mpr ⟨_, hroot⟩
    omega
  · -- the root is not inner: every word of the code is empty
    have hempty : inner S code = ∅ := by
      apply Finset.eq_empty_of_forall_notMem
      intro x hx
      obtain ⟨n, hn, hpre, hne⟩ := mem_inner.mp hx
      refine hroot (mem_inner.mpr ⟨n, hn, List.nil_prefix, ?_⟩)
      intro hnil
      rw [← hnil] at hpre hne
      exact hne (List.prefix_nil.mp hpre)
    rw [hempty, Finset.card_empty]
    rcases Finset.eq_empty_or_nonempty S with h | h
    · rw [Complete, h, Finset.sum_empty] at hall
      exact absurd hall (Nat.two_pow_pos d).ne
    · exact Finset.card_pos.mpr h

/-! ## The canonical code -/

section Canonical

variable [LinearOrder ι] (S : Finset ι) (len : ι → ℕ)

/-- Shorter words come first, words of one length in the order of their symbols. -/
def Before (m n : ι) : Prop := len m < len n ∨ len m = len n ∧ m < n

instance (m n : ι) : Decidable (Before len m n) := inferInstanceAs (Decidable (_ ∨ _))

/-- The word of a symbol as a number: the words before it, extended to its length. -/
def codeValue (n : ι) : ℕ := ∑ m ∈ S with Before len m n, 2 ^ (len n - len m)

/-- The word of a symbol in the canonical code. -/
def canonical (n : ι) : List Bool := msb (len n) (codeValue S len n)

/-- The numbers of `d` bits that the words need. -/
def space (d : ℕ) : ℕ := ∑ n ∈ S, 2 ^ (d - len n)

variable {S len} {m n : ι}

@[simp] theorem length_canonical (n : ι) : (canonical S len n).length = len n := length_msb _ _

theorem Before.trans_or (h : Before len m n) {k : ι} (hk : Before len k m ∨ k = m) :
    Before len k n := by
  rcases hk with hk | rfl
  · rcases h with h | ⟨h, h'⟩ <;> rcases hk with hk | ⟨hk, hk'⟩
    · exact .inl (hk.trans h)
    · exact .inl (hk ▸ h)
    · exact .inl (h ▸ hk)
    · exact .inr ⟨hk.trans h, hk'.trans h'⟩
  · exact h

theorem before_total (hne : m ≠ n) : Before len m n ∨ Before len n m := by
  rcases lt_trichotomy (len m) (len n) with h | h | h
  · exact .inl (.inl h)
  · rcases lt_or_gt_of_ne hne with h' | h'
    · exact .inl (.inr ⟨h, h'⟩)
    · exact .inr (.inr ⟨h.symm, h'⟩)
  · exact .inr (.inl h)

theorem not_before_self (n : ι) : ¬Before len n n := by
  rintro (h | ⟨_, h⟩)
  · exact lt_irrefl _ h
  · exact lt_irrefl _ h

/-- The interval of a word starts where the words before it end. -/
theorem codeValue_mul (hd : len n ≤ d) :
    codeValue S len n * 2 ^ (d - len n) = ∑ m ∈ S with Before len m n, 2 ^ (d - len m) := by
  rw [codeValue, Finset.sum_mul]
  apply Finset.sum_congr rfl
  intro m hm
  have hle : len m ≤ len n := by
    rcases (Finset.mem_filter.mp hm).2 with h | ⟨h, _⟩ <;> omega
  rw [← pow_add]
  congr 1
  omega

/-- A word and the words before it need no more than a set that has all of them. -/
theorem codeValue_succ_mul_le (hd : len m ≤ d) {T : Finset ι} (hm : m ∈ T)
    (hT : ∀ k ∈ S, Before len k m → k ∈ T) :
    (codeValue S len m + 1) * 2 ^ (d - len m) ≤ ∑ k ∈ T, 2 ^ (d - len k) := by
  have hnot : m ∉ S.filter fun k => Before len k m := fun h =>
    not_before_self m (Finset.mem_filter.mp h).2
  rw [Nat.add_mul, Nat.one_mul, codeValue_mul hd, Nat.add_comm,
    ← Finset.sum_insert (f := fun k => 2 ^ (d - len k)) hnot]
  apply Finset.sum_le_sum_of_subset
  intro k hk
  rcases Finset.mem_insert.mp hk with rfl | hk
  · exact hm
  · obtain ⟨hkS, hkm⟩ := Finset.mem_filter.mp hk
    exact hT k hkS hkm

/-- The words fit their lengths when there is space for them. -/
theorem codeValue_lt (hn : n ∈ S) (hd : len n ≤ d) (hspace : space S len d ≤ 2 ^ d) :
    codeValue S len n < 2 ^ len n := by
  have hle := (codeValue_succ_mul_le hd hn fun k hk _ => hk).trans hspace
  have hpow : 2 ^ d = 2 ^ len n * 2 ^ (d - len n) := by
    rw [← pow_add, Nat.add_sub_cancel' hd]
  rw [hpow] at hle
  exact Nat.lt_of_succ_le (Nat.le_of_mul_le_mul_right hle (Nat.two_pow_pos _))

theorem low_canonical (hn : n ∈ S) (hd : len n ≤ d) (hspace : space S len d ≤ 2 ^ d) :
    low d (canonical S len n) = codeValue S len n * 2 ^ (d - len n) := by
  rw [low, length_canonical, canonical, ofMsb_msb (codeValue_lt hn hd hspace)]

/-- **The canonical code is free of prefixes**, when there is space for its words. -/
theorem canonical_prefixFree (hd : ∀ n ∈ S, len n ≤ d) (hspace : space S len d ≤ 2 ^ d) :
    PrefixFree S (canonical S len) := by
  -- the interval of the later word starts behind the one of the earlier word
  have hapart : ∀ m ∈ S, ∀ n ∈ S, Before len m n → ∀ x ∈ cover d (canonical S len m),
      x ∉ cover d (canonical S len n) := by
    intro m hm n hn hbefore x hxm hxn
    have hle := codeValue_succ_mul_le (S := S) (hd m hm)
      (T := S.filter fun k => Before len k n) (Finset.mem_filter.mpr ⟨hm, hbefore⟩)
      fun k hk hkm => Finset.mem_filter.mpr ⟨hk, hbefore.trans_or (.inl hkm)⟩
    rw [← codeValue_mul (hd n hn), ← low_canonical hn (hd n hn) hspace, Nat.add_mul, Nat.one_mul,
      ← low_canonical hm (hd m hm) hspace] at hle
    rw [cover, Finset.mem_Ico, length_canonical] at hxm hxn
    omega
  intro m hm n hn hpre
  by_contra hne
  have hmem : low d (canonical S len n) ∈ cover d (canonical S len m) := by
    have hlow := mem_cover.mp (low_mem_cover d (canonical S len n))
    have hmn := (prefix_iff_div.mp hpre).2
    rw [mem_cover, ← hmn, ← hlow, Nat.div_div_eq_div_mul, ← pow_add, length_canonical,
      length_canonical]
    have hlen := hpre.length_le
    have hdn := hd n hn
    rw [length_canonical, length_canonical] at hlen
    congr 2
    omega
  rcases before_total hne with h | h
  · exact hapart m hm n hn h _ hmem (low_mem_cover d _)
  · exact hapart n hn m hm h _ (low_mem_cover d _) hmem

theorem canonical_complete (hspace : space S len d = 2 ^ d) : Complete d S (canonical S len) := by
  rw [Complete, ← hspace, space]
  exact Finset.sum_congr rfl fun n _ => by rw [length_canonical]

end Canonical

end PrefixCode
