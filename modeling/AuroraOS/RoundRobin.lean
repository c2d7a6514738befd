/-
# Round robin

A library for time slicing.  The tasks stand in a queue, and the first one runs.  A tick is
taken off its slice; when the slice is used up, the task gets a new one and goes to the end
of the queue.

A queue without repetitions runs in turns: each task for what is left of its slice, in the
order of the queue, and from then on for a whole slice in each round.
-/
import Mathlib

namespace RoundRobin

/-- The tasks in the order in which they run, and the ticks that are left for each. -/
structure Slices (T : Type*) where
  queue : List T
  left : T → ℕ

section Turns

variable {T : Type*} {left left' : T → ℕ} {x : T} {xs q : List T}

/-- The turns of a queue. -/
def turns (left : T → ℕ) (q : List T) : List T := q.flatMap fun x => List.replicate (left x) x

theorem turns_cons : turns left (x :: xs) = List.replicate (left x) x ++ turns left xs := rfl

theorem turns_congr (h : ∀ x ∈ q, left' x = left x) : turns left' q = turns left q :=
  List.flatMap_congr fun x hx => by rw [h x hx]

theorem mem_of_mem_turns (h : x ∈ turns left q) : x ∈ q := by
  obtain ⟨y, hy, hx⟩ := List.mem_flatMap.mp h
  exact List.eq_of_mem_replicate hx ▸ hy

theorem length_turns (slice : ℕ) (q : List T) :
    (turns (fun _ => slice) q).length = q.length * slice := by
  induction q with
  | nil => exact (Nat.zero_mul slice).symm
  | cons x xs ih =>
    rw [turns_cons, List.length_append, List.length_replicate, ih, List.length_cons, Nat.succ_mul,
      Nat.add_comm]

end Turns

variable {T : Type*} [DecidableEq T]

/-- One tick. -/
def tick (slice : ℕ) (s : Slices T) : Slices T :=
  match s.queue with
  | [] => s
  | x :: xs =>
    if s.left x ≤ 1 then { queue := xs ++ [x], left := Function.update s.left x slice }
    else { s with left := Function.update s.left x (s.left x - 1) }

/-- The tasks that run in `n` ticks. -/
def ran (slice : ℕ) : ℕ → Slices T → List T
  | 0, _ => []
  | n + 1, s => s.queue.head?.toList ++ ran slice n (tick slice s)

variable {slice n m : ℕ} {s : Slices T} {x : T} {xs us vs q : List T} {left : T → ℕ}

/-! ## Ticks -/

theorem tick_last (h : left x ≤ 1) : tick slice { queue := x :: xs, left := left } =
    { queue := xs ++ [x], left := Function.update left x slice } := if_pos h

theorem tick_on (h : 1 < left x) : tick slice { queue := x :: xs, left := left } =
    { queue := x :: xs, left := Function.update left x (left x - 1) } := if_neg (Nat.not_le.mpr h)

theorem ran_add (m n : ℕ) : ∀ s : Slices T,
    ran slice (m + n) s = ran slice m s ++ ran slice n ((tick slice)^[m] s) := by
  induction m with
  | zero =>
    intro s
    rw [Nat.zero_add]
    rfl
  | succ m ih =>
    intro s
    rw [Nat.succ_add, ran, ran, ih, List.append_assoc, Function.iterate_succ_apply]

theorem ran_prefix (h : n ≤ m) (s : Slices T) : ran slice n s <+: ran slice m s := by
  obtain ⟨d, rfl⟩ := Nat.exists_eq_add_of_le h
  rw [ran_add]
  exact List.prefix_append _ _

/-! ## Turns -/

/-- A task has one turn in a round. -/
theorem count_turns (hq : q.Nodup) (hx : x ∈ q) : (turns left q).count x = left x := by
  induction q with
  | nil => cases hx
  | cons y ys ih =>
    obtain ⟨hy, hys⟩ := List.nodup_cons.mp hq
    rw [turns_cons, List.count_append, List.count_replicate]
    rcases List.mem_cons.mp hx with rfl | hx
    · have hnone : (turns left ys).count x = 0 :=
        List.count_eq_zero.mpr fun hm => hy (mem_of_mem_turns hm)
      rw [hnone, if_pos (beq_self_eq_true x), Nat.add_zero]
    · have hne : y ≠ x := by
        rintro rfl
        exact hy hx
      rw [ih hys hx, if_neg (by simpa using hne), Nat.zero_add]

/-- The task at the head runs until its slice is used up. -/
theorem run_slice (slice : ℕ) (xs : List T) (n : ℕ) : ∀ {left : T → ℕ}, left x = n + 1 →
    (tick slice)^[n + 1] { queue := x :: xs, left := left } =
        { queue := xs ++ [x], left := Function.update left x slice } ∧
      ran slice (n + 1) { queue := x :: xs, left := left } = List.replicate (n + 1) x := by
  induction n with
  | zero =>
    intro left hx
    exact ⟨tick_last (Nat.le_of_eq hx), rfl⟩
  | succ n ih =>
    intro left hx
    have hon : tick slice { queue := x :: xs, left := left } =
        { queue := x :: xs, left := Function.update left x (left x - 1) } := tick_on (by omega)
    have hleft : Function.update left x (left x - 1) x = n + 1 := by
      rw [Function.update_self, hx]
      rfl
    obtain ⟨hstate, hran⟩ := ih hleft
    rw [Function.update_idem] at hstate
    refine ⟨?_, ?_⟩
    · rw [Function.iterate_succ_apply, hon]
      exact hstate
    · rw [ran, hon, hran]
      rfl

/-- **The first tasks of a queue have their turns.**  The induction is on these tasks; the
others wait behind them. -/
theorem run_turns (slice : ℕ) (us : List T) : ∀ (vs : List T) {left : T → ℕ}, us.Nodup →
    (∀ x ∈ us, 0 < left x) →
    (tick slice)^[(turns left us).length] { queue := us ++ vs, left := left } =
        { queue := vs ++ us, left := fun x => if x ∈ us then slice else left x } ∧
      ran slice (turns left us).length { queue := us ++ vs, left := left } = turns left us := by
  induction us with
  | nil =>
    intro vs left _ _
    refine ⟨?_, rfl⟩
    show ({ queue := vs, left := left } : Slices T) = _
    simp
  | cons x us ih =>
    intro vs left hnd hpos
    obtain ⟨hx, hnd⟩ := List.nodup_cons.mp hnd
    obtain ⟨n, hn⟩ := Nat.exists_eq_succ_of_ne_zero (Nat.ne_of_gt (hpos x List.mem_cons_self))
    have hother : ∀ y ∈ us, Function.update left x slice y = left y := by
      rintro y hy
      refine Function.update_of_ne ?_ _ _
      rintro rfl
      exact hx hy
    obtain ⟨hfirst, hran₁⟩ := run_slice slice (us ++ vs) n hn
    have hpos' : ∀ y ∈ us, 0 < Function.update left x slice y := by
      intro y hy
      rw [hother y hy]
      exact hpos y (List.mem_cons_of_mem x hy)
    obtain ⟨hrest, hran₂⟩ := ih (vs ++ [x]) hnd hpos'
    rw [turns_congr hother, ← List.append_assoc] at hrest hran₂
    have hlen : (turns left (x :: us)).length = n + 1 + (turns left us).length := by
      rw [turns_cons, List.length_append, List.length_replicate, hn]
    refine ⟨?_, ?_⟩
    · rw [hlen, Nat.add_comm, Function.iterate_add_apply, List.cons_append, hfirst, hrest,
        List.append_assoc]
      congr 1
      funext y
      by_cases hy : y = x
      · subst hy
        simp [hx]
      · simp [hy]
    · rw [hlen, ran_add, List.cons_append, hran₁, hfirst, hran₂, turns_cons, hn]

/-! ## Rounds -/

/-- **The first round**: each task runs for what is left of its slice. -/
theorem run_round (slice : ℕ) (hq : q.Nodup) (hpos : ∀ x ∈ q, 0 < left x) :
    (tick slice)^[(turns left q).length] { queue := q, left := left } =
        { queue := q, left := fun x => if x ∈ q then slice else left x } ∧
      ran slice (turns left q).length { queue := q, left := left } = turns left q := by
  have h := run_turns slice q [] hq hpos
  rwa [List.append_nil, List.nil_append] at h

/-- **Rounds of whole slices** follow each other. -/
theorem run_rounds (hq : q.Nodup) (hslice : 0 < slice) (hfull : ∀ x ∈ q, left x = slice) (m : ℕ) :
    (tick slice)^[m * (q.length * slice)] { queue := q, left := left } =
        { queue := q, left := left } ∧
      ran slice (m * (q.length * slice)) { queue := q, left := left } =
        (List.replicate m (turns (fun _ => slice) q)).flatten := by
  have hturns : turns left q = turns (fun _ => slice) q := turns_congr hfull
  have hpos : ∀ x ∈ q, 0 < left x := fun x hx => (hfull x hx).symm ▸ hslice
  obtain ⟨hstate, hran⟩ := run_round slice hq hpos
  rw [hturns, length_turns] at hstate hran
  have hsame : (fun x => if x ∈ q then slice else left x) = left := by
    funext x
    by_cases hx : x ∈ q
    · rw [if_pos hx, hfull x hx]
    · rw [if_neg hx]
  rw [hsame] at hstate
  induction m with
  | zero =>
    rw [Nat.zero_mul]
    exact ⟨rfl, rfl⟩
  | succ m ih =>
    rw [Nat.succ_mul]
    refine ⟨?_, ?_⟩
    · rw [Function.iterate_add_apply, hstate, ih.1]
    · rw [Nat.add_comm, ran_add, hstate, ih.2, hran, List.replicate_succ, List.flatten_cons]

/-- **The schedule**: one round for what is left of the slices, then rounds of whole slices. -/
theorem ran_schedule (hq : q.Nodup) (hslice : 0 < slice) (hpos : ∀ x ∈ q, 0 < left x) (m : ℕ) :
    ran slice ((turns left q).length + m * (q.length * slice)) { queue := q, left := left } =
      turns left q ++ (List.replicate m (turns (fun _ => slice) q)).flatten := by
  obtain ⟨hstate, hran⟩ := run_round slice hq hpos
  rw [ran_add, hran, hstate, (run_rounds hq hslice (fun x hx => if_pos hx) m).2]

/-- Every run is a prefix of the schedule. -/
theorem ran_prefix_schedule (hq : q.Nodup) (hne : q ≠ []) (hslice : 0 < slice)
    (hpos : ∀ x ∈ q, 0 < left x) (n : ℕ) :
    ran slice n { queue := q, left := left } <+:
      turns left q ++ (List.replicate n (turns (fun _ => slice) q)).flatten := by
  rw [← ran_schedule hq hslice hpos]
  refine ran_prefix ?_ _
  have hround : 0 < q.length * slice := Nat.mul_pos (List.length_pos_iff.mpr hne) hslice
  have : n ≤ n * (q.length * slice) := Nat.le_mul_of_pos_right n hround
  omega

end RoundRobin
