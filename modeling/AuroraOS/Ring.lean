/-
# Intrusive circular lists

A library for doubly linked rings threaded through the nodes themselves.  Every
ring passes through one sentinel; the other nodes are items.  The links are two
functions `next` and `prev`, and the four pointer writes that splice a node are
the primitive operations.

`Rings l q` says that the links `l` hold, for every sentinel `s`, exactly the
items of the list `q s`, in order, and that no item is on two rings.  The
operations are described by what they do to `q`.
-/
import Mathlib

namespace Ring

/-! ## Nodes and links -/

/-- A node: the sentinel of a ring, or an item that can be on a ring. -/
inductive Node (S T : Type*) where
  | head (s : S)
  | item (t : T)
  deriving DecidableEq

/-- The two link fields of every node. -/
structure Links (N : Type*) where
  next : N → N
  prev : N → N

section Ops

variable {N : Type*} [DecidableEq N]

/-- `n->next = m`. -/
def Links.setNext (l : Links N) (n m : N) : Links N :=
  { l with next := Function.update l.next n m }

/-- `n->prev = m`. -/
def Links.setPrev (l : Links N) (n m : N) : Links N :=
  { l with prev := Function.update l.prev n m }

@[simp] theorem setNext_next (l : Links N) (n m : N) :
    (l.setNext n m).next = Function.update l.next n m := rfl

@[simp] theorem setNext_prev (l : Links N) (n m : N) : (l.setNext n m).prev = l.prev := rfl

@[simp] theorem setPrev_prev (l : Links N) (n m : N) :
    (l.setPrev n m).prev = Function.update l.prev n m := rfl

@[simp] theorem setPrev_next (l : Links N) (n m : N) : (l.setPrev n m).next = l.next := rfl

/-- Take a node out: its two neighbours are joined, its own fields stay. -/
def Links.unlink (l : Links N) (n : N) : Links N :=
  let l := l.setPrev (l.next n) (l.prev n)
  l.setNext (l.prev n) (l.next n)

/-- Put a node between `p` and `q`. -/
def Links.link (l : Links N) (n p q : N) : Links N :=
  (((l.setPrev n p).setNext p n).setNext n q).setPrev q n

/-- Take a node out and put it between `p` and `q`; `p` and `q` are the values
from before. -/
def Links.move (l : Links N) (n p q : N) : Links N := (l.unlink n).link n p q

/-- Make a node a ring of its own. -/
def Links.reset (l : Links N) (n : N) : Links N := (l.setNext n n).setPrev n n

end Ops

variable {S T : Type*}

/-- `a` and `b` are neighbours, in both directions. -/
def Linked (l : Links (Node S T)) (a b : Node S T) : Prop := l.next a = b ∧ l.prev b = a

/-- The links lead from `a` through exactly the items `xs` to `b`. -/
def Path (l : Links (Node S T)) : Node S T → List T → Node S T → Prop
  | a, [], b => Linked l a b
  | a, x :: xs, b => Linked l a (.item x) ∧ Path l (.item x) xs b

/-- The links hold the rings `q`: one for each sentinel, with no item repeated
and no item on two rings. -/
structure Rings (l : Links (Node S T)) (q : S → List T) : Prop where
  path : ∀ s, Path l (.head s) (q s) (.head s)
  nodup : ∀ s, (q s).Nodup
  unique : ∀ s s' x, x ∈ q s → x ∈ q s' → s = s'

/-! ## Paths -/

theorem path_append {l : Links (Node S T)} {y : T} {ys : List T} {b : Node S T} :
    ∀ {a : Node S T} {xs : List T},
      Path l a (xs ++ y :: ys) b ↔ Path l a xs (.item y) ∧ Path l (.item y) ys b
  | a, [] => Iff.rfl
  | a, x :: xs => by
    rw [List.cons_append, Path, Path, path_append, and_assoc]

/-- A path only depends on the `next` fields it leaves by and the `prev` fields
it arrives by. -/
theorem path_congr {l l' : Links (Node S T)} {b : Node S T} {xs : List T} :
    ∀ {a : Node S T},
      (l'.next a = l.next a) → (∀ x ∈ xs, l'.next (.item x) = l.next (.item x)) →
      (∀ x ∈ xs, l'.prev (.item x) = l.prev (.item x)) → l'.prev b = l.prev b →
      Path l a xs b → Path l' a xs b := by
  induction xs with
  | nil =>
    intro a ha _ _ hb hp
    exact ⟨ha.trans hp.1, hb.trans hp.2⟩
  | cons x xs ih =>
    intro a ha hn hpv hb hp
    refine ⟨⟨ha.trans hp.1.1, (hpv x List.mem_cons_self).trans hp.1.2⟩, ?_⟩
    exact ih (hn x List.mem_cons_self) (fun y hy => hn y (List.mem_cons_of_mem _ hy))
      (fun y hy => hpv y (List.mem_cons_of_mem _ hy)) hb hp.2

/-- The first node after `a` on a path. -/
theorem path_next {l : Links (Node S T)} {a b : Node S T} {xs : List T} (h : Path l a xs b) :
    l.next a = (xs.head?.map Node.item).getD b := by
  cases xs with
  | nil => exact h.1
  | cons x xs => exact h.1.1

/-- The last node before `b` on a path. -/
theorem path_prev {l : Links (Node S T)} {b : Node S T} {xs : List T} :
    ∀ {a : Node S T}, Path l a xs b → l.prev b = (xs.getLast?.map Node.item).getD a := by
  induction xs with
  | nil => intro a h; exact h.2
  | cons x xs ih =>
    intro a h
    rw [ih h.2, List.getLast?_cons]
    cases xs.getLast? <;> rfl

/-- On a path every node but the last is the `prev` of its `next`. -/
theorem path_prev_next {l : Links (Node S T)} {b : Node S T} {xs : List T} :
    ∀ {a : Node S T}, Path l a xs b →
      ∀ n, n = a ∨ n ∈ xs.map Node.item → l.prev (l.next n) = n := by
  induction xs with
  | nil =>
    intro a h n hn
    rcases hn with rfl | hn
    · rw [h.1, h.2]
    · simp at hn
  | cons x xs ih =>
    intro a h n hn
    rcases hn with rfl | hn
    · rw [h.1.1, h.1.2]
    · rw [List.map_cons, List.mem_cons] at hn
      exact ih h.2 n hn

/-- On a path every node but the first is the `next` of its `prev`. -/
theorem path_next_prev {l : Links (Node S T)} {b : Node S T} {xs : List T} :
    ∀ {a : Node S T}, Path l a xs b →
      ∀ n, n = b ∨ n ∈ xs.map Node.item → l.next (l.prev n) = n := by
  induction xs with
  | nil =>
    intro a h n hn
    rcases hn with rfl | hn
    · rw [h.2, h.1]
    · simp at hn
  | cons x xs ih =>
    intro a h n hn
    rw [List.map_cons, List.mem_cons] at hn
    rcases hn with hn | rfl | hn
    · exact ih h.2 n (Or.inl hn)
    · rw [h.1.2, h.1.1]
    · exact ih h.2 n (Or.inr hn)

/-! ## The two halves of a splice -/

section Splice

variable [DecidableEq S] [DecidableEq T]

@[simp] theorem unlink_next (l : Links (Node S T)) (n : Node S T) :
    (l.unlink n).next = Function.update l.next (l.prev n) (l.next n) := by
  by_cases h : n = l.next n
  · simp [Links.unlink, ← h]
  · simp [Links.unlink, Function.update_of_ne h]

@[simp] theorem unlink_prev (l : Links (Node S T)) (n : Node S T) :
    (l.unlink n).prev = Function.update l.prev (l.next n) (l.prev n) := rfl

@[simp] theorem link_next (l : Links (Node S T)) (n p q : Node S T) :
    (l.link n p q).next = Function.update (Function.update l.next p n) n q := rfl

@[simp] theorem link_prev (l : Links (Node S T)) (n p q : Node S T) :
    (l.link n p q).prev = Function.update (Function.update l.prev n p) q n := rfl

/-- Taking out an item joins the two parts of its path. -/
theorem path_unlink {l : Links (Node S T)} {x : T} {vs : List T} {b : Node S T} {us : List T} :
    ∀ {a : Node S T}, Path l a (us ++ x :: vs) b → (us ++ x :: vs).Nodup →
      (∀ y ∈ us ++ x :: vs, a ≠ .item y) → (∀ y ∈ us ++ x :: vs, b ≠ .item y) →
      Path (l.unlink (.item x)) a (us ++ vs) b := by
  induction us with
  | nil =>
    intro a h hnd ha hb
    have hp : l.prev (.item x) = a := h.1.2
    cases vs with
    | nil =>
      have hn : l.next (.item x) = b := h.2.1
      simp [Path, Linked, hp, hn]
    | cons v vs =>
      have hn : l.next (.item x) = .item v := h.2.1.1
      simp only [List.nil_append, List.nodup_cons] at hnd
      refine ⟨by simp [Linked, hp, hn], path_congr ?_ ?_ ?_ ?_ h.2.2⟩
      · simp [hp, Function.update_of_ne (ha v (by simp)).symm]
      · intro y hy
        simp [hp, Function.update_of_ne (ha y (by simp [hy])).symm]
      · intro y hy
        have hne : (Node.item y : Node S T) ≠ .item v := by
          rintro ⟨⟩
          exact hnd.2.1 hy
        simp [hn, Function.update_of_ne hne]
      · simp [hn, Function.update_of_ne (hb v (by simp))]
  | cons u us ih =>
    intro a h hnd ha hb
    rw [List.cons_append, Path] at h
    rw [List.cons_append, List.nodup_cons] at hnd
    refine ⟨⟨?_, ?_⟩, ih h.2 hnd.2 ?_ ?_⟩
    · -- the node before `x` is an item of `u :: us`, so it is not `a`
      have hp := path_prev (path_append.mp h.2).1
      have hne : a ≠ l.prev (.item x) := by
        rw [hp]
        cases hl : us.getLast? with
        | none => exact ha u (by simp)
        | some w => exact ha w (by simp [List.mem_of_getLast? hl])
      simp [Function.update_of_ne hne, h.1.1]
    · have hn := path_next (path_append.mp h.2).2
      have hne : Node.item u ≠ l.next (.item x) := by
        rw [hn]
        cases vs with
        | nil => exact (hb u (by simp)).symm
        | cons v vs =>
          rintro ⟨⟩
          exact hnd.1 (by simp)
      simp [Function.update_of_ne hne, h.1.2]
    · rintro y hy ⟨⟩
      exact hnd.1 hy
    · intro y hy
      exact hb y (by rw [List.cons_append]; exact List.mem_cons_of_mem _ hy)

/-- Linking an item between two neighbours inserts it there. -/
theorem path_link {l : Links (Node S T)} {x : T} {vs : List T} {b : Node S T} {us : List T} :
    ∀ {a : Node S T}, Path l a (us ++ vs) b → (us ++ x :: vs).Nodup →
      (∀ y ∈ us ++ x :: vs, a ≠ .item y) → (∀ y ∈ us ++ x :: vs, b ≠ .item y) →
      Path (l.link (.item x) ((us.getLast?.map Node.item).getD a)
        ((vs.head?.map Node.item).getD b)) a (us ++ x :: vs) b := by
  induction us with
  | nil =>
    intro a h hnd ha hb
    simp only [List.nil_append, List.nodup_cons] at hnd
    have hax := ha x (by simp)
    cases vs with
    | nil =>
      have hbx := hb x (by simp)
      simp [Path, Linked, Function.update_of_ne hax, Function.update_of_ne hbx.symm]
    | cons v vs =>
      simp only [List.mem_cons, not_or, List.nodup_cons] at hnd
      have hxv : (Node.item x : Node S T) ≠ .item v := fun h => hnd.1.1 (by injection h)
      refine ⟨?_, ?_, path_congr ?_ ?_ ?_ ?_ h.2⟩
      · simp [Linked, Function.update_of_ne hax, Function.update_of_ne hxv]
      · simp [Linked]
      · have hva := (ha v (by simp)).symm
        simp [Function.update_of_ne hxv.symm, Function.update_of_ne hva]
      · intro y hy
        have hya := (ha y (by simp [hy])).symm
        have hyx : (Node.item y : Node S T) ≠ .item x := by
          rintro ⟨⟩
          exact hnd.1.2 hy
        simp [Function.update_of_ne hyx, Function.update_of_ne hya]
      · intro y hy
        have hyx : (Node.item y : Node S T) ≠ .item x := by
          rintro ⟨⟩
          exact hnd.1.2 hy
        have hyv : (Node.item y : Node S T) ≠ .item v := by
          rintro ⟨⟩
          exact hnd.2.1 hy
        simp [Function.update_of_ne hyx, Function.update_of_ne hyv]
      · simp [Function.update_of_ne (hb v (by simp)), Function.update_of_ne (hb x (by simp))]
  | cons u us ih =>
    intro a h hnd ha hb
    rw [List.cons_append, Path] at h
    rw [List.cons_append, List.nodup_cons] at hnd
    have hlast : (((u :: us).getLast?.map Node.item).getD a : Node S T)
        = (us.getLast?.map Node.item).getD (.item u) := by
      rw [List.getLast?_cons]
      cases us.getLast? <;> rfl
    have hux : (Node.item u : Node S T) ≠ .item x := by
      rintro ⟨⟩
      exact hnd.1 (by simp)
    rw [hlast]
    refine ⟨⟨?_, ?_⟩, ih h.2 hnd.2 ?_ ?_⟩
    · have hne : a ≠ (us.getLast?.map Node.item).getD (.item u) := by
        cases hl : us.getLast? with
        | none => exact ha u (by simp)
        | some w => exact ha w (by simp [List.mem_of_getLast? hl])
      rw [link_next, Function.update_of_ne (ha x (by simp)), Function.update_of_ne hne, h.1.1]
    · have hne : Node.item u ≠ (vs.head?.map Node.item).getD b := by
        cases vs with
        | nil => exact (hb u (by simp)).symm
        | cons v vs =>
          rintro ⟨⟩
          exact hnd.1 (by simp)
      simp [Function.update_of_ne hne, Function.update_of_ne hux, h.1.2]
    · rintro y hy ⟨⟩
      exact hnd.1 hy
    · intro y hy
      exact hb y (by rw [List.cons_append]; exact List.mem_cons_of_mem _ hy)

end Splice

/-! ## What the operations do to the rings -/

namespace Rings

variable {l : Links (Node S T)} {q : S → List T} {x : T} {r s : S}

/-- The first node of a ring. -/
theorem next_head (h : Rings l q) (s : S) :
    l.next (.head s) = ((q s).head?.map Node.item).getD (.head s) := path_next (h.path s)

/-- The last node of a ring. -/
theorem prev_head (h : Rings l q) (s : S) :
    l.prev (.head s) = ((q s).getLast?.map Node.item).getD (.head s) := path_prev (h.path s)

theorem next_head_eq_item (h : Rings l q) :
    l.next (.head s) = .item x ↔ (q s).head? = some x := by
  rw [h.next_head]
  cases (q s).head? <;> simp

theorem next_head_eq_head (h : Rings l q) : l.next (.head s) = .head r ↔ q s = [] ∧ s = r := by
  rw [h.next_head]
  cases q s <;> simp

theorem prev_head_eq_item (h : Rings l q) :
    l.prev (.head s) = .item x ↔ (q s).getLast? = some x := by
  rw [h.prev_head]
  cases (q s).getLast? <;> simp

/-- The neighbours of an item are on its ring. -/
theorem neighbours (h : Rings l q) (hx : x ∈ q r) :
    (l.prev (.item x) = .head r ∨ ∃ y ∈ q r, l.prev (.item x) = .item y) ∧
      (l.next (.item x) = .head r ∨ ∃ y ∈ q r, l.next (.item x) = .item y) := by
  obtain ⟨us, vs, hq⟩ := List.append_of_mem hx
  have hp := path_append.mp (hq ▸ h.path r)
  constructor
  · rw [path_prev hp.1]
    cases hl : us.getLast? with
    | none => exact Or.inl rfl
    | some y => exact Or.inr ⟨y, by simp [hq, List.mem_of_getLast? hl], rfl⟩
  · rw [path_next hp.2]
    cases vs with
    | nil => exact Or.inl rfl
    | cons y vs => exact Or.inr ⟨y, by simp [hq], rfl⟩

/-- On a ring `next` and `prev` undo each other. -/
theorem next_prev (h : Rings l q) {n : Node S T} (hn : n = .head s ∨ n ∈ (q s).map Node.item) :
    l.prev (l.next n) = n ∧ l.next (l.prev n) = n :=
  ⟨path_prev_next (h.path s) n hn, path_next_prev (h.path s) n hn⟩

/-- An item on a ring is not its own neighbour. -/
theorem next_item_ne (h : Rings l q) (hx : x ∈ q r) : l.next (.item x) ≠ .item x := by
  obtain ⟨us, vs, hq⟩ := List.append_of_mem hx
  have hnd := (List.nodup_append.mp (hq ▸ h.nodup r)).2.1
  rw [path_next (path_append.mp (hq ▸ h.path r)).2]
  cases vs with
  | nil => simp
  | cons y vs =>
    rintro ⟨⟩
    exact (List.nodup_cons.mp hnd).1 List.mem_cons_self

variable [DecidableEq S] [DecidableEq T]

theorem unlink (h : Rings l q) (hx : x ∈ q r) :
    Rings (l.unlink (.item x)) (fun s => (q s).erase x) where
  path := by
    intro s
    by_cases hs : s = r
    · subst hs
      obtain ⟨us, vs, hq⟩ := List.append_of_mem hx
      have hnd := hq ▸ h.nodup s
      have hus : x ∉ us := fun hm => (List.disjoint_of_nodup_append hnd) hm List.mem_cons_self
      rw [hq, List.erase_append_right _ hus, List.erase_cons_head]
      exact path_unlink (hq ▸ h.path s) hnd (by simp) (by simp)
    · have hxs : x ∉ q s := fun hm => hs (h.unique _ _ _ hm hx)
      rw [List.erase_of_not_mem hxs]
      obtain ⟨hp, hn⟩ := h.neighbours hx
      -- the two fields written belong to nodes of the ring `r`
      have hoff : ∀ m, (m = .head r ∨ ∃ y ∈ q r, m = .item y) →
          (.head s : Node S T) ≠ m ∧ ∀ y ∈ q s, (.item y : Node S T) ≠ m := by
        rintro m (rfl | ⟨y, hy, rfl⟩)
        · exact ⟨by simpa using hs, by simp⟩
        · refine ⟨by simp, ?_⟩
          rintro z hz ⟨⟩
          exact hs (h.unique _ _ _ hz hy)
      refine path_congr ?_ ?_ ?_ ?_ (h.path s)
      · rw [unlink_next, Function.update_of_ne (hoff _ hp).1]
      · intro y hy
        rw [unlink_next, Function.update_of_ne ((hoff _ hp).2 y hy)]
      · intro y hy
        rw [unlink_prev, Function.update_of_ne ((hoff _ hn).2 y hy)]
      · rw [unlink_prev, Function.update_of_ne (hoff _ hn).1]
  nodup s := (h.nodup s).erase x
  unique _ _ y hs hs' := h.unique _ _ y (List.mem_of_mem_erase hs) (List.mem_of_mem_erase hs')

/-- Unlinking a node that is a ring of its own changes nothing. -/
theorem unlink_self {n : Node S T} (hn : l.next n = n) (hp : l.prev n = n) : l.unlink n = l := by
  have h1 : (l.unlink n).next = l.next := by
    rw [unlink_next, hp, Function.update_eq_self]
  have h2 : (l.unlink n).prev = l.prev := by
    rw [unlink_prev, hn, Function.update_eq_self]
  cases l
  simp_all [Links.unlink, Links.setNext, Links.setPrev]

/-- Linking a fresh item into the ring of `s`, at any place. -/
theorem link_at (h : Rings l q) (hx : ∀ r, x ∉ q r) (us vs : List T) (hq : q s = us ++ vs) :
    Rings (l.link (.item x) ((us.getLast?.map Node.item).getD (.head s))
        ((vs.head?.map Node.item).getD (.head s)))
      (Function.update q s (us ++ x :: vs)) where
  path := by
    intro r
    by_cases hr : r = s
    · subst hr
      rw [Function.update_self]
      have hnd : (us ++ x :: vs).Nodup :=
        (List.nodup_middle).mpr (List.nodup_cons.mpr ⟨hq ▸ hx r, hq ▸ h.nodup r⟩)
      exact path_link (hq ▸ h.path r) hnd (by simp) (by simp)
    · rw [Function.update_of_ne hr]
      have hoff : ∀ m, (m = .head s ∨ ∃ y ∈ q s, m = .item y) →
          (.head r : Node S T) ≠ m ∧ ∀ y ∈ q r, (.item y : Node S T) ≠ m := by
        rintro m (rfl | ⟨y, hy, rfl⟩)
        · exact ⟨by simpa using hr, by simp⟩
        · refine ⟨by simp, ?_⟩
          rintro z hz ⟨⟩
          exact hr (h.unique _ _ _ hz hy)
      have hxr : ∀ y ∈ q r, (Node.item y : Node S T) ≠ .item x := by
        rintro y hy ⟨⟩
        exact hx r hy
      have hp := hoff ((us.getLast?.map Node.item).getD (.head s)) (by
        cases hl : us.getLast? with
        | none => exact Or.inl rfl
        | some y => exact Or.inr ⟨y, by simp [hq, List.mem_of_getLast? hl], rfl⟩)
      have hn := hoff ((vs.head?.map Node.item).getD (.head s)) (by
        cases vs with
        | nil => exact Or.inl rfl
        | cons y vs => exact Or.inr ⟨y, by simp [hq], rfl⟩)
      refine path_congr ?_ ?_ ?_ ?_ (h.path r)
      · rw [link_next, Function.update_of_ne (by simp), Function.update_of_ne hp.1]
      · intro y hy
        rw [link_next, Function.update_of_ne (hxr y hy), Function.update_of_ne (hp.2 y hy)]
      · intro y hy
        rw [link_prev, Function.update_of_ne (hn.2 y hy), Function.update_of_ne (hxr y hy)]
      · rw [link_prev, Function.update_of_ne hn.1, Function.update_of_ne (by simp)]
  nodup := by
    intro r
    by_cases hr : r = s
    · subst hr
      rw [Function.update_self]
      exact (List.nodup_middle).mpr (List.nodup_cons.mpr ⟨hq ▸ hx r, hq ▸ h.nodup r⟩)
    · rw [Function.update_of_ne hr]
      exact h.nodup r
  unique := by
    have key : ∀ r y, y ∈ Function.update q s (us ++ x :: vs) r → y = x ∧ r = s ∨ y ∈ q r := by
      intro r y hy
      by_cases hr : r = s
      · subst hr
        rw [Function.update_self] at hy
        rw [hq]
        simp only [List.mem_append, List.mem_cons] at hy ⊢
        tauto
      · exact Or.inr (by rwa [Function.update_of_ne hr] at hy)
    intro r r' y hy hy'
    rcases key r y hy with ⟨rfl, rfl⟩ | hm <;> rcases key r' y hy' with ⟨h1, rfl⟩ | hm'
    · rfl
    · exact absurd hm' (hx _)
    · exact absurd (h1 ▸ hm) (hx _)
    · exact h.unique _ _ _ hm hm'

/-! ## Moving an item -/

/-- Insertion at the head of a ring. -/
theorem link_head (h : Rings l q) (hx : ∀ r, x ∉ q r) :
    Rings (l.link (.item x) (.head s) (l.next (.head s))) (Function.update q s (x :: q s)) := by
  rw [h.next_head]
  exact h.link_at hx [] (q s) rfl

/-- Insertion at the end of a ring. -/
theorem link_last (h : Rings l q) (hx : ∀ r, x ∉ q r) :
    Rings (l.link (.item x) (l.prev (.head s)) (.head s))
      (Function.update q s (q s ++ [x])) := by
  rw [h.prev_head]
  exact h.link_at hx (q s) [] (by simp)

/-- **Moving an item to the head of a ring** works unless it is there already. -/
theorem move_head (h : Rings l q) (hx : x ∈ q r) (hne : l.next (.head s) ≠ .item x) :
    Rings (l.move (.item x) (.head s) (l.next (.head s)))
      (Function.update (fun s => (q s).erase x) s (x :: (q s).erase x)) := by
  have hu := h.unlink hx
  have hp : (Node.head s : Node S T) ≠ l.prev (.item x) := by
    intro he
    exact hne (by rw [he]; exact (h.next_prev (Or.inr (List.mem_map_of_mem hx))).2)
  have hn : l.next (.head s) = (l.unlink (.item x)).next (.head s) := by
    rw [unlink_next, Function.update_of_ne hp]
  rw [Links.move, hn]
  exact hu.link_head (fun t ht => (h.nodup t).not_mem_erase ht)

/-- An item that is moved to the head of the ring where it is already becomes its own `next`. -/
theorem not_move_head (hn : l.next (.head s) = .item x) (hx : x ∈ q r) :
    ¬ Rings (l.move (.item x) (.head s) (l.next (.head s))) q := by
  intro h
  refine h.next_item_ne hx ?_
  rw [hn, Links.move, link_next, Function.update_self]

/-- **Moving an item to the end of a ring** works unless it is there already. -/
theorem move_last (h : Rings l q) (hx : x ∈ q r) (hne : l.prev (.head s) ≠ .item x) :
    Rings (l.move (.item x) (l.prev (.head s)) (.head s))
      (Function.update (fun s => (q s).erase x) s ((q s).erase x ++ [x])) := by
  have hu := h.unlink hx
  have hp : (Node.head s : Node S T) ≠ l.next (.item x) := by
    intro he
    exact hne (by rw [he]; exact (h.next_prev (Or.inr (List.mem_map_of_mem hx))).1)
  have hn : l.prev (.head s) = (l.unlink (.item x)).prev (.head s) := by
    rw [unlink_prev, Function.update_of_ne hp]
  rw [Links.move, hn]
  exact hu.link_last (fun t ht => (h.nodup t).not_mem_erase ht)

/-- Moving a node that is a ring of its own to the head of a ring. -/
theorem move_fresh (h : Rings l q) (hx : ∀ r, x ∉ q r) (hn : l.next (.item x) = .item x)
    (hp : l.prev (.item x) = .item x) :
    Rings (l.move (.item x) (.head s) (l.next (.head s)))
      (Function.update q s (x :: q s)) := by
  rw [Links.move, unlink_self hn hp]
  exact h.link_head hx

/-- Re-initialising a sentinel empties its ring and touches no other. -/
theorem reset_head (h : Rings l q) : Rings (l.reset (.head s)) (Function.update q s []) where
  path := by
    intro r
    by_cases hr : r = s
    · subst hr
      simp [Path, Linked, Links.reset]
    · rw [Function.update_of_ne hr]
      have hne : (Node.head r : Node S T) ≠ .head s := by simpa using hr
      refine path_congr ?_ ?_ ?_ ?_ (h.path r)
      · simp [Links.reset, Function.update_of_ne hne]
      · intro y _
        simp [Links.reset]
      · intro y _
        simp [Links.reset]
      · simp [Links.reset, Function.update_of_ne hne]
  nodup := by
    intro r
    by_cases hr : r = s
    · simp [hr]
    · rw [Function.update_of_ne hr]
      exact h.nodup r
  unique := by
    have key : ∀ r y, y ∈ Function.update q s [] r → y ∈ q r := by
      intro r y hy
      by_cases hr : r = s
      · simp [hr] at hy
      · rwa [Function.update_of_ne hr] at hy
    exact fun r r' y hy hy' => h.unique _ _ _ (key r y hy) (key r' y hy')

/-- Re-initialising a node that is on no ring touches no ring. -/
theorem reset_item (h : Rings l q) (hx : ∀ r, x ∉ q r) : Rings (l.reset (.item x)) q where
  path := by
    intro r
    have hne : ∀ y ∈ q r, (Node.item y : Node S T) ≠ .item x := by
      rintro y hy ⟨⟩
      exact hx r hy
    refine path_congr ?_ ?_ ?_ ?_ (h.path r)
    · simp [Links.reset]
    · intro y hy
      simp [Links.reset, Function.update_of_ne (hne y hy)]
    · intro y hy
      simp [Links.reset, Function.update_of_ne (hne y hy)]
    · simp [Links.reset]
  nodup := h.nodup
  unique := h.unique

end Rings

/-! ## Where the items are -/

section Places

variable {l l' : Links (Node S T)} {p : T → Option S} {x : T} {r s : S}

/-- The links form rings, and the item `x` is on the ring of `s` when `p x = some s`. -/
def Places (l : Links (Node S T)) (p : T → Option S) : Prop :=
  ∃ q, Rings l q ∧ ∀ x s, x ∈ q s ↔ p x = some s

/-- The first item of a ring is on it. -/
theorem Places.next_head_item (h : Places l p) (hn : l.next (.head s) = .item x) :
    p x = some s := by
  obtain ⟨q, hq, hp⟩ := h
  exact (hp x s).mp (List.mem_of_head? (hq.next_head_eq_item.mp hn))

/-- A sentinel that is its own `next` has an empty ring. -/
theorem Places.next_head_head (h : Places l p) (hn : l.next (.head s) = .head r) (x : T) :
    p x ≠ some s := by
  obtain ⟨q, hq, hp⟩ := h
  intro hx
  have := (hp x s).mpr hx
  rw [(hq.next_head_eq_head.mp hn).1] at this
  cases this

/-- The places only depend on the links of the sentinels and of the items on the rings. -/
theorem Places.congr (h : Places l p)
    (hl : ∀ n, (∀ y, n = .item y → p y ≠ none) → l'.next n = l.next n ∧ l'.prev n = l.prev n) :
    Places l' p := by
  obtain ⟨q, hq, hp⟩ := h
  have hhead : ∀ s, l'.next (.head s) = l.next (.head s) ∧ l'.prev (.head s) = l.prev (.head s) :=
    fun s => hl _ (fun y hy => by cases hy)
  have hitem : ∀ s, ∀ y ∈ q s, l'.next (.item y) = l.next (.item y) ∧
      l'.prev (.item y) = l.prev (.item y) := by
    intro s y hy
    apply hl
    rintro z ⟨⟩ hz
    rw [(hp y s).mp hy] at hz
    cases hz
  exact ⟨q, ⟨fun s => path_congr (hhead s).1 (fun y hy => (hitem s y hy).1)
    (fun y hy => (hitem s y hy).2) (hhead s).2 (hq.path s), hq.nodup, hq.unique⟩, hp⟩

/-- The items that are met from a node on, up to the next sentinel and at most `n`. -/
def walk (l : Links (Node S T)) : ℕ → Node S T → List T
  | 0, _ => []
  | _ + 1, .head _ => []
  | n + 1, .item x => x :: walk l n (l.next (.item x))

theorem walk_path {n : ℕ} {xs : List T} : ∀ {a : Node S T}, Path l a xs (.head s) →
    xs.length < n → walk l n (l.next a) = xs := by
  induction xs generalizing n with
  | nil =>
    intro a h hn
    obtain ⟨m, rfl⟩ := Nat.exists_eq_succ_of_ne_zero (Nat.ne_of_gt hn)
    rw [h.1]
    rfl
  | cons x xs ih =>
    intro a h hn
    obtain ⟨m, rfl⟩ := Nat.exists_eq_succ_of_ne_zero (Nat.ne_of_gt (Nat.zero_lt_of_lt hn))
    rw [h.1.1, walk, ih h.2 (by simpa using hn)]

/-- Following `next` from a sentinel meets exactly the items of its ring. -/
theorem Rings.walk_eq [Fintype T] {q : S → List T} (h : Rings l q) (s : S) :
    walk l (Fintype.card T + 1) (l.next (.head s)) = q s :=
  walk_path (h.path s) (Nat.lt_succ_of_le (h.nodup s).length_le_card)

theorem Places.rings [Fintype T] (h : Places l p) :
    Rings l fun s => walk l (Fintype.card T + 1) (l.next (.head s)) := by
  obtain ⟨q, hq, -⟩ := h
  have he : (fun s => walk l (Fintype.card T + 1) (l.next (.head s))) = q := funext hq.walk_eq
  rw [he]
  exact hq

theorem Places.mem_walk [Fintype T] (h : Places l p) (x : T) (s : S) :
    x ∈ walk l (Fintype.card T + 1) (l.next (.head s)) ↔ p x = some s := by
  obtain ⟨q, hq, hp⟩ := h
  rw [hq.walk_eq, hp]

/-- The node behind the last one of a ring is the sentinel. -/
theorem Places.next_prev_head (h : Places l p) (s : S) : l.next (l.prev (.head s)) = .head s := by
  obtain ⟨q, hq, -⟩ := h
  exact (hq.next_prev (s := s) (Or.inl rfl)).2

variable [DecidableEq S] [DecidableEq T]

/-- The membership in the rings behind an insertion. -/
theorem mem_insert_iff {q : S → List T} (hp : ∀ x s, x ∈ q s ↔ p x = some s)
    (hnd : ∀ s, (q s).Nodup)
    {xs : List T} (hxs : ∀ y, y ∈ xs ↔ y = x ∨ y ∈ (q s).erase x) (y : T) (r : S) :
    y ∈ Function.update (fun s => (q s).erase x) s xs r ↔
      Function.update p x (some s) y = some r := by
  by_cases hr : r = s
  · subst hr
    rw [Function.update_self, hxs]
    by_cases hy : y = x
    · simp [hy]
    · rw [Function.update_of_ne hy, List.mem_erase_of_ne hy, hp]
      simp [hy]
  · rw [Function.update_of_ne hr]
    by_cases hy : y = x
    · subst hy
      rw [Function.update_self]
      simp only [(hnd r).not_mem_erase, Option.some.injEq, false_iff]
      exact fun he => hr he.symm
    · rw [Function.update_of_ne hy, List.mem_erase_of_ne hy, hp]

/-- Moving an item to the head of a ring, if it is not there already. -/
theorem Places.move_head (h : Places l p) (hx : p x = some r) (hne : l.next (.head s) ≠ .item x) :
    Places (l.move (.item x) (.head s) (l.next (.head s))) (Function.update p x (some s)) := by
  obtain ⟨q, hq, hp⟩ := h
  exact ⟨_, hq.move_head ((hp x r).mpr hx) hne,
    mem_insert_iff hp hq.nodup fun y => by rw [List.mem_cons]⟩

/-- Moving an item to the end of a ring, if it is not there already. -/
theorem Places.move_last (h : Places l p) (hx : p x = some r) (hne : l.prev (.head s) ≠ .item x) :
    Places (l.move (.item x) (l.prev (.head s)) (.head s)) (Function.update p x (some s)) := by
  obtain ⟨q, hq, hp⟩ := h
  exact ⟨_, hq.move_last ((hp x r).mpr hx) hne,
    mem_insert_iff hp hq.nodup fun y => by rw [List.mem_append, List.mem_singleton, or_comm]⟩

/-- A new item goes to the head of a ring. -/
theorem Places.insert (h : Places l p) (hx : p x = none) :
    Places ((l.reset (.item x)).move (.item x) (.head s) ((l.reset (.item x)).next (.head s)))
      (Function.update p x (some s)) := by
  obtain ⟨q, hq, hp⟩ := h
  have hnone : ∀ r, x ∉ q r := by
    intro r hr
    rw [(hp x r).mp hr] at hx
    cases hx
  refine ⟨_, (hq.reset_item hnone).move_fresh hnone (by simp [Links.reset]) (by simp [Links.reset]),
    ?_⟩
  intro y r
  by_cases hr : r = s
  · subst hr
    rw [Function.update_self, List.mem_cons, hp]
    by_cases hy : y = x
    · simp [hy]
    · simp [hy]
  · rw [Function.update_of_ne hr, hp]
    by_cases hy : y = x
    · subst hy
      rw [Function.update_self, hx]
      simp only [reduceCtorEq, Option.some.injEq, false_iff]
      exact fun he => hr he.symm
    · rw [Function.update_of_ne hy]

/-- Re-initialising a sentinel takes its items off the rings. -/
theorem Places.reset_head (h : Places l p) :
    Places (l.reset (.head s)) fun x => if p x = some s then none else p x := by
  obtain ⟨q, hq, hp⟩ := h
  refine ⟨_, hq.reset_head, fun y r => ?_⟩
  by_cases hr : r = s
  · subst hr
    rw [Function.update_self]
    by_cases hy : p y = some r
    · simp [hy]
    · simp [hy]
  · rw [Function.update_of_ne hr, hp]
    show p y = some r ↔ (if p y = some s then none else p y) = some r
    by_cases hy : p y = some s
    · rw [if_pos hy, hy]
      simp only [reduceCtorEq, Option.some.injEq, iff_false]
      exact fun he => hr he.symm
    · rw [if_neg hy]

/-- Re-initialising a sentinel with an empty ring. -/
theorem Places.reset_empty (h : Places l p) (hs : ∀ x, p x ≠ some s) :
    Places (l.reset (.head s)) p := by
  have he : (fun x => if p x = some s then none else p x) = p := funext fun x => if_neg (hs x)
  rw [← he]
  exact h.reset_head

end Places

end Ring
