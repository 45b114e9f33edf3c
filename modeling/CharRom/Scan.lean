/-!
# Two-ended scans

A scan hands out the items of a fixed list from both ends. `front` is the position of the next
item from the left and `back` one past the next item from the right; the two never cross, so no
item is handed out twice. The pixels of a row and the rows of a glyph are read through scans.

The skipping steps are built on the single ones: `nth k` hands out `k` items one `next` at a
time, giving up at the first that is missing, and then one more; `nthBack` does the same with
`nextBack`.

A scan's view is the list of items still to come, `Scan.remaining`. Each step is also given on
plain lists, `Scan.Step.onList`, which reads the list as a double-ended queue. Each operation
comes with its equation through the view (`next_eq`, `nextBack_eq`, `nth_eq`, `nthBack_eq`), and
together they give `walk_eq_walkList`: a scan answers every run of steps as the queue of its
remaining items does.
-/

namespace CharRom

/-- A window `front ≤ back` over a list, handing out items from either end. -/
structure Scan (α : Type) where
  items : List α
  front : Nat
  back : Nat
  front_le_back : front ≤ back
  back_le_length : back ≤ items.length

namespace Scan

variable {α : Type}

/-- A scan over all of a list. -/
def ofList (items : List α) : Scan α :=
  ⟨items, 0, items.length, Nat.zero_le _, Nat.le_refl _⟩

/-- The items not yet handed out, in order. -/
def remaining (s : Scan α) : List α :=
  (s.items.take s.back).drop s.front

/-- The number of items not yet handed out. -/
def len (s : Scan α) : Nat := s.back - s.front

/-- Hands out the front item. -/
def next (s : Scan α) : Option α × Scan α :=
  if h : s.front < s.back then
    have : s.front < s.items.length := Nat.lt_of_lt_of_le h s.back_le_length
    (some s.items[s.front], ⟨s.items, s.front + 1, s.back, h, s.back_le_length⟩)
  else (none, s)

/-- Hands out the back item. -/
def nextBack (s : Scan α) : Option α × Scan α :=
  if h : s.front < s.back then
    have : s.back - 1 < s.items.length := by have := s.back_le_length; omega
    (some s.items[s.back - 1],
      ⟨s.items, s.front, s.back - 1, by omega, by have := s.back_le_length; omega⟩)
  else (none, s)

/-- Hands out `k` items with `pop`, one at a time, and stops early at the first `pop` that hands
out nothing; answers whether all `k` were there. -/
def advance (pop : Scan α → Option α × Scan α) (s : Scan α) : Nat → Bool × Scan α
  | 0 => (true, s)
  | k + 1 =>
    match pop s with
    | (some _, t) => advance pop t k
    | (none, t) => (false, t)

/-- Skips `k` items with `pop` and hands out the next with it; a scan that ran out while skipping
hands out nothing more. -/
def nthWith (pop : Scan α → Option α × Scan α) (s : Scan α) (k : Nat) : Option α × Scan α :=
  match advance pop s k with
  | (true, t) => pop t
  | (false, t) => (none, t)

/-- Skips `k` items at the front and hands out the next; when no more than `k` are left, the scan
is emptied and hands out nothing. -/
def nth (s : Scan α) (k : Nat) : Option α × Scan α :=
  nthWith next s k

/-- Skips `k` items at the back and hands out the one before them; when no more than `k` are
left, the scan is emptied and hands out nothing. -/
def nthBack (s : Scan α) (k : Nat) : Option α × Scan α :=
  nthWith nextBack s k

/-- The moves a scan answers. -/
inductive Step where
  | next
  | nextBack
  | nth (k : Nat)
  | nthBack (k : Nat)
  | len
  deriving DecidableEq, Repr

/-- What a step answers: the item handed out, if any, or for `len` the number of items left. -/
inductive Reply (α : Type) where
  | item (value : Option α)
  | count (n : Nat)
  deriving DecidableEq, Repr

/-- One step of a scan. -/
def step (s : Scan α) : Step → Reply α × Scan α
  | .next => let r := s.next; (.item r.1, r.2)
  | .nextBack => let r := s.nextBack; (.item r.1, r.2)
  | .nth k => let r := s.nth k; (.item r.1, r.2)
  | .nthBack k => let r := s.nthBack k; (.item r.1, r.2)
  | .len => (.count s.len, s)

/-- Steps run in order; each answer comes with the number of items left after it. -/
def walk (s : Scan α) : List Step → List (Reply α × Nat)
  | [] => []
  | st :: rest =>
    let r := s.step st
    (r.1, r.2.len) :: walk r.2 rest

/-- One step on a list read as a double-ended queue. -/
def Step.onList : Step → List α → Reply α × List α
  | .next, l => (.item l.head?, l.tail)
  | .nextBack, l => (.item l.getLast?, l.dropLast)
  | .nth k, l => (.item l[k]?, l.drop (k + 1))
  | .nthBack k, l => (.item l.reverse[k]?, l.take (l.length - (k + 1)))
  | .len, l => (.count l.length, l)

/-- Steps run in order on a queue, each answer with the queue's length after it. -/
def Step.walkList : List α → List Step → List (Reply α × Nat)
  | _, [] => []
  | l, st :: rest =>
    let r := st.onList l
    (r.1, r.2.length) :: walkList r.2 rest

@[simp]
theorem remaining_ofList (items : List α) : (ofList items).remaining = items := by
  simp [remaining, ofList]

theorem length_remaining (s : Scan α) : s.remaining.length = s.len := by
  have := s.back_le_length
  simp only [remaining, len, List.length_drop, List.length_take]
  omega

/-- Item `k` still to come is item `front + k` of the list, while that lies before `back`. -/
theorem getElem?_remaining (s : Scan α) (k : Nat) :
    s.remaining[k]? = if s.front + k < s.back then s.items[s.front + k]? else none := by
  simp only [remaining, List.getElem?_drop, List.getElem?_take]

theorem remaining_eq_nil_iff (s : Scan α) : s.remaining = [] ↔ s.back ≤ s.front := by
  rw [← List.length_eq_zero_iff, length_remaining, len]
  omega

theorem next_eq (s : Scan α) :
    s.next.1 = s.remaining.head? ∧ s.next.2.remaining = s.remaining.tail := by
  unfold next
  split
  · rename_i h
    dsimp only
    refine ⟨?_, ?_⟩
    · have hb : s.front < s.items.length := Nat.lt_of_lt_of_le h s.back_le_length
      rw [List.head?_eq_getElem?, getElem?_remaining]
      simp [h, hb]
    · simp [remaining, List.tail_drop]
  · rename_i h
    dsimp only
    have hnil : s.remaining = [] := (remaining_eq_nil_iff s).2 (by omega)
    simp [hnil]

theorem nextBack_eq (s : Scan α) :
    s.nextBack.1 = s.remaining.getLast? ∧ s.nextBack.2.remaining = s.remaining.dropLast := by
  unfold nextBack
  split
  · rename_i h
    dsimp only
    refine ⟨?_, ?_⟩
    · rw [List.getLast?_eq_getElem?, getElem?_remaining, length_remaining]
      have e : s.front + (s.len - 1) = s.back - 1 := by simp only [len]; omega
      rw [e, if_pos (by omega), List.getElem?_eq_getElem]
    · apply List.ext_getElem?
      intro k
      rw [getElem?_remaining, List.getElem?_dropLast, getElem?_remaining, length_remaining]
      by_cases hk : s.front + k < s.back - 1
      · have h1 : k < s.len - 1 := by simp only [len]; omega
        have h2 : s.front + k < s.back := by omega
        rw [if_pos hk, if_pos h1, if_pos h2]
      · have h1 : ¬ k < s.len - 1 := by simp only [len]; omega
        rw [if_neg hk, if_neg h1]
  · rename_i h
    dsimp only
    have hnil : s.remaining = [] := (remaining_eq_nil_iff s).2 (by omega)
    simp [hnil]

section Skipping

/-! `nth` and `nthBack` are one skipping loop over two ways to pop. Read through the right view,
the remaining items for the front and the same reversed for the back, a pop hands out the view's
head and leaves its tail; skipping `k` items then drops `k` from the view. -/

variable (pop : Scan α → Option α × Scan α) (view : Scan α → List α)
  (hpop : ∀ s, (pop s).1 = (view s).head? ∧ view (pop s).2 = (view s).tail)
include hpop

theorem advance_view (s : Scan α) (k : Nat) :
    (advance pop s k).1 = decide (k ≤ (view s).length) ∧
      view (advance pop s k).2 = (view s).drop k := by
  induction k generalizing s with
  | zero => simp [advance]
  | succ k ih =>
    obtain ⟨hout, hrest⟩ := hpop s
    unfold advance
    split
    · next a t hs =>
      -- the pop handed out the view's head, so the view held an item
      rw [hs] at hout hrest
      have hlen : 0 < (view s).length := by
        cases hv : view s with
        | nil => simp [hv] at hout
        | cons => simp
      obtain ⟨hflag, hview⟩ := ih t
      refine ⟨?_, ?_⟩
      · rw [hflag, hrest, List.length_tail, decide_eq_decide]
        omega
      · rw [hview, hrest, List.drop_tail]
    · next t hs =>
      -- the pop handed out nothing, so the view was empty and stays so
      rw [hs] at hout hrest
      have hnil : view s = [] := List.head?_eq_none_iff.1 hout.symm
      refine ⟨by simp [hnil], ?_⟩
      simpa [hnil] using hrest

theorem nthWith_view (s : Scan α) (k : Nat) :
    (nthWith pop s k).1 = (view s)[k]? ∧ view (nthWith pop s k).2 = (view s).drop (k + 1) := by
  obtain ⟨hflag, hview⟩ := advance_view pop view hpop s k
  unfold nthWith
  split
  · next t hs =>
    -- all `k` were skipped, and the pop hands out the item after them
    rw [hs] at hflag hview
    obtain ⟨hout, hrest⟩ := hpop t
    rw [hout, hrest, hview, List.head?_drop, List.tail_drop]
    exact ⟨rfl, rfl⟩
  · next t hs =>
    -- the view ran out while skipping, so it holds nothing at `k` or past it
    rw [hs] at hflag hview
    have hshort : (view s).length < k := by simpa using hflag
    refine ⟨(List.getElem?_eq_none (by omega)).symm, ?_⟩
    rw [hview, List.drop_eq_nil_of_le (by omega), List.drop_eq_nil_of_le (by omega)]

end Skipping

theorem nth_eq (s : Scan α) (k : Nat) :
    (s.nth k).1 = s.remaining[k]? ∧ (s.nth k).2.remaining = s.remaining.drop (k + 1) :=
  nthWith_view next remaining next_eq s k

theorem nthBack_eq (s : Scan α) (k : Nat) :
    (s.nthBack k).1 = s.remaining.reverse[k]? ∧
      (s.nthBack k).2.remaining = s.remaining.take (s.remaining.length - (k + 1)) := by
  -- a back step is a front step on the reversed queue
  have hpop : ∀ t : Scan α, t.nextBack.1 = t.remaining.reverse.head? ∧
      t.nextBack.2.remaining.reverse = t.remaining.reverse.tail := fun t => by
    rw [(nextBack_eq t).1, (nextBack_eq t).2, List.head?_reverse, List.tail_reverse]
    exact ⟨rfl, rfl⟩
  obtain ⟨hout, hrest⟩ := nthWith_view nextBack (fun t => t.remaining.reverse) hpop s k
  refine ⟨hout, List.reverse_inj.1 ?_⟩
  rw [← List.drop_reverse]
  exact hrest

/-- One step of a scan answers as the same step on the queue of its remaining items, and leaves
the queue that step leaves. -/
theorem step_eq (s : Scan α) (st : Step) :
    (s.step st).1 = (st.onList s.remaining).1 ∧
      (s.step st).2.remaining = (st.onList s.remaining).2 := by
  cases st with
  | next => exact ⟨by simp [step, Step.onList, (next_eq s).1], (next_eq s).2⟩
  | nextBack => exact ⟨by simp [step, Step.onList, (nextBack_eq s).1], (nextBack_eq s).2⟩
  | nth k => exact ⟨by simp [step, Step.onList, (nth_eq s k).1], (nth_eq s k).2⟩
  | nthBack k => exact ⟨by simp [step, Step.onList, (nthBack_eq s k).1], (nthBack_eq s k).2⟩
  | len => exact ⟨by simp [step, Step.onList, length_remaining], rfl⟩

/-- A scan answers every run of steps as the queue of its remaining items does. -/
theorem walk_eq_walkList (s : Scan α) (steps : List Step) :
    s.walk steps = Step.walkList s.remaining steps := by
  induction steps generalizing s with
  | nil => rfl
  | cons st rest ih =>
    obtain ⟨h1, h2⟩ := step_eq s st
    simp only [walk, Step.walkList, ih, h1, h2, ← length_remaining]

end Scan

end CharRom
