import CharRom.Glyph

/-!
# Pixel and row scans are queues

A row's pixels and a glyph's rows are handed out by scans, and a scan answers every run of steps
as the double-ended queue of its remaining items does (`Scan.walk_eq_walkList`). Here the two
queues are named: the eight bits of the row's byte, the most significant first, and the glyph's
eight rows, the top one first.

Two consequences follow for every run, whatever its steps. No count the scan reports, after a
step or for `len`, exceeds the queue's length: the window never runs backwards. And front and back
steps hand every item out once: the items handed out at the front, then those left, then those
handed out at the back, the latest first, make up the queue, so the two ends never hand out the
same item and never pass one by.
-/

namespace CharRom

namespace Scan

variable {α : Type}

/-- The items a run of steps hands out with `next`, in order, read off its answers. -/
def frontItems : List Step → List (Reply α × Nat) → List α
  | .next :: steps, (.item (some a), _) :: answers => a :: frontItems steps answers
  | _ :: steps, _ :: answers => frontItems steps answers
  | _, _ => []

/-- The items a run of steps hands out with `nextBack`, in the order handed out. -/
def backItems : List Step → List (Reply α × Nat) → List α
  | .nextBack :: steps, (.item (some a), _) :: answers => a :: backItems steps answers
  | _ :: steps, _ :: answers => backItems steps answers
  | _, _ => []

/-- A scan answers as the queue `q`: every run of steps answers as it does on `q`, no count
reported along a run exceeds the length of `q`, and a run of front and back steps hands out a
prefix of `q` at the front and a suffix at the back with the rest of `q` between them. -/
structure AnswersAs (s : Scan α) (q : List α) : Prop where
  walk_eq : ∀ steps, s.walk steps = Step.walkList q steps
  count_le : ∀ steps, ∀ p ∈ s.walk steps, p.2 ≤ q.length
  handed_out_once : ∀ steps, (∀ st ∈ steps, st = .next ∨ st = .nextBack) →
    ∃ rest, q = frontItems steps (s.walk steps) ++ rest ++ (backItems steps (s.walk steps)).reverse

namespace Step

theorem length_onList_le (st : Step) (l : List α) : (st.onList l).2.length ≤ l.length := by
  cases st <;> simp [onList]

theorem count_le_of_mem_walkList (l : List α) (steps : List Step) :
    ∀ p ∈ walkList l steps, p.2 ≤ l.length := by
  induction steps generalizing l with
  | nil => simp [walkList]
  | cons st rest ih =>
    -- the queue after the first step is no longer, and the rest of the run is bounded by it
    have hstep := length_onList_le st l
    intro p hp
    rcases List.mem_cons.1 hp with rfl | hp
    · exact hstep
    · exact Nat.le_trans (ih _ p hp) hstep

theorem eq_of_walkList_next (l : List α) (steps : List Step) :
    walkList l (.next :: steps) = (.item l.head?, l.tail.length) :: walkList l.tail steps := rfl

theorem eq_of_walkList_nextBack (l : List α) (steps : List Step) :
    walkList l (.nextBack :: steps) =
      (.item l.getLast?, l.dropLast.length) :: walkList l.dropLast steps := rfl

/-- On a queue, a run of front and back steps hands out a prefix at the front and a suffix at
the back, with the rest of the queue between them. -/
theorem exists_eq_frontItems_append (l : List α) (steps : List Step)
    (hends : ∀ st ∈ steps, st = .next ∨ st = .nextBack) :
    ∃ rest, l = frontItems steps (walkList l steps) ++ rest ++
      (backItems steps (walkList l steps)).reverse := by
  induction steps generalizing l with
  | nil => exact ⟨l, by simp [frontItems, backItems]⟩
  | cons st steps ih =>
    have hrest : ∀ st ∈ steps, st = .next ∨ st = .nextBack :=
      fun st hst => hends st (List.mem_cons_of_mem _ hst)
    rcases hends st List.mem_cons_self with rfl | rfl
    · -- a front step takes the head off, which opens the items handed out at the front
      obtain ⟨rest, hl⟩ := ih l.tail hrest
      refine ⟨rest, ?_⟩
      rw [eq_of_walkList_next]
      cases l with
      | nil => simpa [frontItems, backItems] using hl
      | cons a l => simpa [frontItems, backItems] using hl
    · -- a back step takes the last item off, which closes the items handed out at the back
      obtain ⟨rest, hl⟩ := ih l.dropLast hrest
      refine ⟨rest, ?_⟩
      rw [eq_of_walkList_nextBack]
      by_cases hnil : l = []
      · subst hnil
        simpa [frontItems, backItems] using hl
      · rw [List.getLast?_eq_some_getLast hnil]
        simp only [frontItems, backItems, List.reverse_cons]
        calc l = l.dropLast ++ [l.getLast hnil] := (List.dropLast_concat_getLast hnil).symm
          _ = _ := by rw [← List.append_assoc, ← hl]

end Step

/-- Every scan answers as the queue of its remaining items. -/
theorem answersAs_remaining (s : Scan α) : s.AnswersAs s.remaining where
  walk_eq := s.walk_eq_walkList
  count_le steps := by
    rw [s.walk_eq_walkList]
    exact Step.count_le_of_mem_walkList _ steps
  handed_out_once steps hends := by
    rw [s.walk_eq_walkList]
    exact Step.exists_eq_frontItems_append _ steps hends

theorem answersAs_ofList (l : List α) : (ofList l).AnswersAs l := by
  simpa using (ofList l).answersAs_remaining

end Scan

namespace Glyph

theorem bytes_map_mk (g : Glyph) : g.bytes.map Row.mk = (List.finRange 8).map g.row := by
  apply List.ext_getElem
  · simp [bytes]
  · intro i _ _
    simp [bytes, row, Vector.get]

end Glyph

/-- **Pixel and row scans are queues.** The scan over the pixels of the row of byte `b` answers
every run of steps as the double-ended queue of the byte's bits, the most significant first, and
the scan over a glyph's rows as the queue of its rows, the top one first. Along any run no count
exceeds eight, and front and back steps hand every pixel and every row out once. -/
theorem scans_answer_as_queues :
    (∀ b : UInt8,
      (Row.mk b).scan.AnswersAs ((List.range 8).map fun c => b.toNat.testBit (7 - c))) ∧
    (∀ g : Glyph, g.scan.AnswersAs ((List.finRange 8).map g.row)) := by
  refine ⟨fun b => ?_, fun g => ?_⟩
  · rw [← Row.pixels_eq_testBit]
    exact Scan.answersAs_ofList _
  · rw [← Glyph.bytes_map_mk]
    exact Scan.answersAs_ofList _

end CharRom
