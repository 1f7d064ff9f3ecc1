import PhpInternals.Found.Rearrange
import PhpInternals.Found.StateSpec

/-!
# The sort functions of the engine

Embedding of `Zend/zend_sort.c`. A pointer into the array is a position, counted in elements from
`base` (the byte pointers of the source are `base + position * siz`); it is an integer, since some
pointers of `zend_qsort` stand before the array. `stop` is the `end` of the source. Every comparison
and every exchange checks that its positions lie in the array and fails with `outOfRange` otherwise.

Loops are `iterate` with a bound on their rounds, and fail with `outOfSteps` when it is used up.
-/

namespace PhpInternals.Zend.ZendSort

open PhpInternals.Found

variable {α : Type}

/-! ## Memory, comparisons and exchanges -/

/-- The array, and the number of comparisons made. -/
structure Mem (α : Type) where
  arr : ℤ → α
  calls : ℕ

/-- How a call can go wrong. -/
inductive SortError where
  /-- A position outside of the array is compared or exchanged. -/
  | outOfRange
  /-- `begin_stack` and `end_stack` are full. -/
  | stackOverflow
  | outOfSteps
  deriving DecidableEq, Repr

/-- `nmemb` and `cmp`. -/
structure SortCall (α : Type) where
  nmemb : ℕ
  /-- The answer to a comparison, by the number of comparisons before it. -/
  compare : ℕ → α → α → ℤ

/-- A position of the array. -/
def SortCall.InRange (c : SortCall α) (i : ℤ) : Prop := 0 ≤ i ∧ i < c.nmemb

instance (c : SortCall α) : DecidablePred c.InRange := fun _ => inferInstanceAs (Decidable (_ ∧ _))

/-- Programs on the array. -/
abbrev SortM (α : Type) := StateT (Mem α) (Except SortError)

variable (c : SortCall α)

/-- `cmp(i, j)`. Source: `zend_sort.h` `compare_func_t`. -/
def cmp (i j : ℤ) : SortM α ℤ := fun m =>
  if c.InRange i ∧ c.InRange j then
    .ok (c.compare m.calls (m.arr i) (m.arr j), { m with calls := m.calls + 1 })
  else .error .outOfRange

/-- `swp(i, j)`. Source: `zend_sort.h` `swap_func_t`. -/
def swp (i j : ℤ) : SortM α Unit := fun m =>
  if c.InRange i ∧ c.InRange j then .ok ((), { m with arr := swapAt m.arr i j })
  else .error .outOfRange

/-! ## Up to five elements -/

/-- Source: `zend_sort_2`. -/
def zendSort2 (x y : ℤ) : SortM α Unit := do
  if 0 < (← cmp c x y) then swp c x y else pure ()

/-- Source: `zend_sort_3`. -/
def zendSort3 (x y z : ℤ) : SortM α Unit := do
  if 0 < (← cmp c x y) then
    if 0 < (← cmp c z y) then
      swp c x y
      if 0 < (← cmp c y z) then swp c y z else pure ()
    else swp c x z
  else if 0 < (← cmp c y z) then
    swp c y z
    if 0 < (← cmp c x y) then swp c x y else pure ()
  else pure ()

/-- Source: `zend_sort_4`. -/
def zendSort4 (x y z u : ℤ) : SortM α Unit := do
  zendSort3 c x y z
  if 0 < (← cmp c z u) then
    swp c z u
    if 0 < (← cmp c y z) then
      swp c y z
      if 0 < (← cmp c x y) then swp c x y else pure ()
    else pure ()
  else pure ()

/-- Source: `zend_sort_5`. -/
def zendSort5 (x y z u v : ℤ) : SortM α Unit := do
  zendSort4 c x y z u
  if 0 < (← cmp c u v) then
    swp c u v
    if 0 < (← cmp c z u) then
      swp c z u
      if 0 < (← cmp c y z) then
        swp c y z
        if 0 < (← cmp c x y) then swp c x y else pure ()
      else pure ()
    else pure ()
  else pure ()

/-! ## `zend_insert_sort` -/

/-- The place of element `i` among those before it, one position at a time (`while (j != start)`).
Source: `zend_insert_sort`. -/
def insertPlace (steps : ℕ) (start i : ℤ) : SortM α ℤ :=
  iterate .outOfSteps (fun j => do
    if j = start then pure (.inr j)
    else
      let j := j - 1
      if 0 < (← cmp c j i) then pure (.inl j) else pure (.inr (j + 1))) steps (i - 1)

/-- The same with steps of two positions (`do ... while (1)`). Source: `zend_insert_sort`. -/
def probePlace (steps : ℕ) (start i : ℤ) : SortM α ℤ :=
  iterate .outOfSteps (fun j => do
    let j := j - 2
    if 0 < (← cmp c j i) then
      if j = start then pure (.inr j)
      else if j = start + 1 then
        let j := j - 1
        if 0 < (← cmp c i j) then pure (.inr (j + 1)) else pure (.inr j)
      else pure (.inl j)
    else
      let j := j + 1
      if 0 < (← cmp c j i) then pure (.inr j) else pure (.inr (j + 1))) steps (i - 1)

/-- `for (k = i; k > j; k -= siz)`. Source: `zend_insert_sort`. -/
def shiftDown (steps : ℕ) (i j : ℤ) : SortM α Unit :=
  iterate .outOfSteps (fun k => do
    if j < k then
      swp c k (k - 1)
      pure (.inl (k - 1))
    else pure (.inr ())) steps i

/-- The body of both loops over `i`; they differ in how they find the place. Source:
`zend_insert_sort`. -/
def insertAt (steps : ℕ) (place : ℤ → SortM α ℤ) (i : ℤ) : SortM α Unit := do
  if 0 < (← cmp c (i - 1) i) then
    let j ← place i
    shiftDown c steps i j
  else pure ()

/-- `for (i = start; i < stop; i += siz)`. Source: `zend_insert_sort`. -/
def insertLoop (steps : ℕ) (place : ℤ → SortM α ℤ) (start stop : ℤ) : SortM α Unit :=
  iterate .outOfSteps (fun i => do
    if i < stop then
      insertAt c steps place i
      pure (.inl (i + 1))
    else pure (.inr ())) steps start

/-- Source: `zend_insert_sort`. -/
def zendInsertSort (steps : ℕ) (start : ℤ) (nmemb : ℕ) : SortM α Unit :=
  match nmemb with
  | 0 => pure ()
  | 1 => pure ()
  | 2 => zendSort2 c start (start + 1)
  | 3 => zendSort3 c start (start + 1) (start + 2)
  | 4 => zendSort4 c start (start + 1) (start + 2) (start + 3)
  | 5 => zendSort5 c start (start + 1) (start + 2) (start + 3) (start + 4)
  | nmemb => do
    let sentry := start + 6
    insertLoop c steps (insertPlace c steps start) (start + 1) sentry
    insertLoop c steps (probePlace c steps start) sentry (start + nmemb)

/-! ## `zend_sort` -/

/-- `while (cmp(pivot, i) > 0)`: the new `i`, and whether it has met `j` (`goto done`). Source:
`zend_sort`. -/
def scanUp (steps : ℕ) (pivot i j : ℤ) : SortM α (ℤ × Bool) :=
  iterate .outOfSteps (fun i => do
    if 0 < (← cmp c pivot i) then
      let i := i + 1
      if i = j then pure (.inr (i, true)) else pure (.inl i)
    else pure (.inr (i, false))) steps i

/-- `while (cmp(j, pivot) > 0)`: the new `j`, and whether it has met `i`. Source: `zend_sort`. -/
def scanDown (steps : ℕ) (pivot i j : ℤ) : SortM α (ℤ × Bool) :=
  iterate .outOfSteps (fun j => do
    if 0 < (← cmp c j pivot) then
      let j := j - 1
      if j = i then pure (.inr (j, true)) else pure (.inl j)
    else pure (.inr (j, false))) steps j

/-- The loop that partitions, with `i` at `done`. Source: `zend_sort`. -/
def partitionLoop (steps : ℕ) (pivot i j : ℤ) : SortM α ℤ :=
  iterate .outOfSteps (fun ij => do
    let j := ij.2
    let (i, done) ← scanUp c steps pivot ij.1 j
    if done then pure (.inr i)
    else
      let j := j - 1
      if j = i then pure (.inr i)
      else
        let (j, done) ← scanDown c steps pivot i j
        if done then pure (.inr i)
        else
          swp c i j
          let i := i + 1
          if i = j then pure (.inr i) else pure (.inl (i, j))) steps (i, j)

/-- The choice of the pivot. Source: `zend_sort`. -/
def choosePivot (start : ℤ) (nmemb : ℕ) : SortM α Unit :=
  let stop := start + nmemb
  let offset : ℕ := nmemb >>> 1
  let pivot := start + offset
  if nmemb >>> 10 ≠ 0 then
    let delta : ℕ := offset >>> 1
    zendSort5 c start (start + delta) pivot (pivot + delta) (stop - 1)
  else zendSort3 c start pivot (stop - 1)

/-- `zend_sort`: a round of its loop and the recursive call are the same function. -/
def zendSort : ℕ → ℤ → ℕ → SortM α Unit
  | 0, _, _ => throw .outOfSteps
  | steps + 1, start, nmemb => do
    if nmemb ≤ 16 then zendInsertSort c (steps + 1) start nmemb
    else
      let stop := start + nmemb
      choosePivot c start nmemb
      swp c (start + 1) (start + (nmemb >>> 1 : ℕ))
      let pivot := start + 1
      let i ← partitionLoop c (steps + 1) pivot (pivot + 1) (stop - 1)
      swp c pivot (i - 1)
      if i - 1 - start < stop - i then
        zendSort steps start (i - start - 1).toNat
        zendSort steps i (stop - i).toNat
      else
        zendSort steps i (stop - i).toNat
        zendSort steps start (i - start - 1).toNat

/-! ## `zend_qsort` -/

/-- `for (; seg1 < seg2 && compare(begin, seg1) > 0; seg1 += siz)`. Source: `zend_qsort`. -/
def seg1Loop (steps : ℕ) (begin seg1 seg2 : ℤ) : SortM α ℤ :=
  iterate .outOfSteps (fun seg1 => do
    if seg1 < seg2 then
      if 0 < (← cmp c begin seg1) then pure (.inl (seg1 + 1)) else pure (.inr seg1)
    else pure (.inr seg1)) steps seg1

/-- `for (; seg2 >= seg1 && compare(seg2, begin) > 0; seg2 -= siz)`. Source: `zend_qsort`. -/
def seg2Loop (steps : ℕ) (begin seg1 seg2 : ℤ) : SortM α ℤ :=
  iterate .outOfSteps (fun seg2 => do
    if seg1 ≤ seg2 then
      if 0 < (← cmp c seg2 begin) then pure (.inl (seg2 - 1)) else pure (.inr seg2)
    else pure (.inr seg2)) steps seg2

/-- `while (1)`: the loop that partitions, with its last `seg2`. Source: `zend_qsort`. -/
def segLoop (steps : ℕ) (begin seg1 seg2 : ℤ) : SortM α ℤ :=
  iterate .outOfSteps (fun seg => do
    let seg1 ← seg1Loop c steps begin seg.1 seg.2
    let seg2 ← seg2Loop c steps begin seg1 seg.2
    if seg2 ≤ seg1 then pure (.inr seg2)
    else
      swp c seg1 seg2
      pure (.inl (seg1 + 1, seg2 - 1))) steps (seg1, seg2)

/-- A segment written to `begin_stack[loop]` and `end_stack[loop]`: there are `loop` segments below
it. Source: `zend_qsort`. -/
def pushSegment (stackSize : ℕ) (segment : ℤ × ℤ) (stack : List (ℤ × ℤ)) : SortM α (List (ℤ × ℤ)) :=
  if stack.length < stackSize then pure (segment :: stack) else throw .stackOverflow

/-- A part of a segment waits on the stack if it has two elements or more. Source: `zend_qsort`. -/
def deferSegment (stackSize : ℕ) (segment : ℤ × ℤ) (stack : List (ℤ × ℤ)) :
    SortM α (List (ℤ × ℤ)) :=
  if segment.1 < segment.2 then pushSegment stackSize segment stack else pure stack

/-- `while (begin < end)`: the segment is partitioned, its larger part is put on the stack and the
smaller one becomes the segment. Source: `zend_qsort`. -/
def segmentLoop (stackSize steps : ℕ) (begin stop : ℤ) (stack : List (ℤ × ℤ)) :
    SortM α (List (ℤ × ℤ)) :=
  iterate .outOfSteps (fun (s : (ℤ × ℤ) × List (ℤ × ℤ)) => do
    let begin := s.1.1
    let stop := s.1.2
    if begin < stop then
      -- `offset - (offset % siz)` is `siz` times half the distance
      swp c begin (begin + (stop - begin) / 2)
      let seg2 ← segLoop c steps begin (begin + 1) stop
      swp c begin seg2
      if seg2 - begin ≤ stop - seg2 then
        let stack ← deferSegment stackSize (seg2 + 1, stop) s.2
        pure (.inl ((begin, seg2 - 1), stack))
      else
        let stack ← deferSegment stackSize (begin, seg2 - 1) s.2
        pure (.inl ((seg2 + 1, stop), stack))
    else pure (.inr s.2)) steps ((begin, stop), stack)

/-- Source: `QSORT_STACK_SIZE`. -/
def qsortStackSize : ℕ := 64

/-- `zend_qsort`, with stacks of `stackSize` segments. -/
def zendQsort (stackSize steps : ℕ) : SortM α Unit := do
  let stack ← pushSegment stackSize (0, c.nmemb - 1) []
  iterate .outOfSteps (fun stack => do
    match stack with
    | [] => pure (.inr ())
    | (begin, stop) :: stack =>
      let stack ← segmentLoop c stackSize steps begin stop stack
      pure (.inl stack)) steps stack

end PhpInternals.Zend.ZendSort
