import PhpInternals.Found.Loop
import PhpInternals.Zend.ZendAlloc.Bitset

/-!
# The pages of a chunk

The part of `Zend/zend_alloc.c` that hands out runs of pages inside one chunk.
-/

namespace PhpInternals.Zend.ZendAlloc

open Found
open Function (update)

/-- The pages of a chunk. -/
def zendMmPages : ℕ := 512

/-- The first page holds the header of the chunk. -/
def zendMmFirstPage : ℕ := 1

/-- The bits of a word of `free_map`. -/
def zendMmBitsetLen : ℕ := 64

/-- What `map` says of a page: nothing, or that a run of so many pages starts there. Source:
`ZEND_MM_LRUN`. -/
inductive PageInfo where
  | frun
  | lrun (pages : ℕ)
  deriving DecidableEq

/-- `struct _zend_mm_chunk`. -/
structure Chunk where
  freePages : ℕ
  freeTail : ℕ
  freeMap : Bitset
  map : ℕ → PageInfo

/-- What `zend_mm_chunk_init` writes; `zend_mm_init` does the same. Only the first word of the map
is set: a chunk that comes from the system or from the cache has no other bits. -/
def chunkInit (chunk : Chunk) : Chunk :=
  { freePages := zendMmPages - zendMmFirstPage
    freeTail := zendMmFirstPage
    freeMap := update chunk.freeMap 0 ((1#64 <<< zendMmFirstPage) - 1#64)
    map := update chunk.map 0 (.lrun zendMmFirstPage) }

/-- Memory from the system. Source: `zend_mm_chunk_alloc`. -/
def zeroChunk : Chunk := ⟨0, 0, fun _ => 0#64, fun _ => .frun⟩

/-! ## The search -/

/-- Where the search is: in the first inner loop, in the second one with the start of a free run, or
at one of its ends. Source: `zend_mm_alloc_pages`. -/
inductive Phase where
  | skipAllocated
  | skipFree (pageNum : ℕ)
  | found (pageNum : ℕ)
  | notFound
  deriving DecidableEq

/-- The variables of the search; `freeTail` is `chunk->free_tail`. Source: `zend_mm_alloc_pages`. -/
structure Scan where
  phase : Phase
  i : ℕ
  tmp : BitVec 64
  best : ℤ
  bestLen : ℕ
  freeTail : ℕ

/-- `if (best > 0) { page_num = best; goto found; } else { goto not_found; }` Source:
`zend_mm_alloc_pages`. -/
def Scan.takeBest (s : Scan) : Scan :=
  { s with phase := if 0 < s.best then .found s.best.toNat else .notFound }

/-- One round of one of the loops. `freeTail` is the local copy made before the search. Source:
`zend_mm_alloc_pages`. -/
def scanStep (freeMap : Bitset) (pagesCount freeTail : ℕ) (s : Scan) : Option Scan :=
  match s.phase with
  | .skipAllocated =>
    if s.tmp = BitVec.allOnes 64 then
      let i := s.i + zendMmBitsetLen
      if i = zendMmPages then some { s with i := i }.takeBest
      else some { s with i := i, tmp := freeMap (i / zendMmBitsetLen) }
    else
      -- find first 0 bit, reset bits from 0 to "bit"
      some { s with phase := .skipFree (s.i + bitsetNts s.tmp), tmp := s.tmp &&& (s.tmp + 1#64) }
  | .skipFree pageNum =>
    if s.tmp = 0#64 then
      let i := s.i + zendMmBitsetLen
      if freeTail ≤ i ∨ i = zendMmPages then
        let len := zendMmPages - pageNum
        if pagesCount ≤ len ∧ len < s.bestLen then
          some { s with i := i, freeTail := pageNum + pagesCount, phase := .found pageNum }
        else
          -- set accurate value
          some { s with i := i, freeTail := pageNum }.takeBest
      else some { s with i := i, tmp := freeMap (i / zendMmBitsetLen) }
    else
      -- find first 1 bit, set bits from 0 to "bit"
      let len := s.i + ulongNtz s.tmp - pageNum
      let rest := { s with phase := .skipAllocated, tmp := s.tmp ||| (s.tmp - 1#64) }
      if pagesCount ≤ len then
        if len = pagesCount then some { s with phase := .found pageNum }
        else if len < s.bestLen then some { rest with bestLen := len, best := pageNum }
        else some rest
      else some rest
  | .found _ => none
  | .notFound => none

/-- The variables before the search: no candidate yet, and every run is shorter than `bestLen`.
Source: `zend_mm_alloc_pages`. -/
def Scan.start (chunk : Chunk) : Scan :=
  { phase := .skipAllocated
    i := 0
    tmp := chunk.freeMap 0
    best := -1
    bestLen := zendMmPages
    freeTail := chunk.freeTail }

/-- **The best-fit search**, with the number of its rounds. Source: `zend_mm_alloc_pages`. -/
def bestFit (rounds : ℕ) (chunk : Chunk) (pagesCount : ℕ) : Option Scan :=
  loop (scanStep chunk.freeMap pagesCount chunk.freeTail) rounds (Scan.start chunk)

/-! ## Runs of pages -/

/-- `found:`. Source: `zend_mm_alloc_pages`. -/
def markRun (chunk : Chunk) (pageNum pagesCount : ℕ) : Chunk :=
  { freePages := chunk.freePages - pagesCount
    freeMap := bitsetSetRange chunk.freeMap pageNum pagesCount
    map := update chunk.map pageNum (.lrun pagesCount)
    freeTail := if pageNum = chunk.freeTail then pageNum + pagesCount else chunk.freeTail }

/-- `zend_mm_alloc_pages` in one chunk: the chunk it leaves and the page the run starts at, or that
the search has to go on in another chunk. Nothing is returned when the rounds do not suffice. -/
def allocPages (rounds : ℕ) (chunk : Chunk) (pagesCount : ℕ) : Option (Chunk × Option ℕ) :=
  if chunk.freePages < pagesCount then some (chunk, none)
  else (bestFit rounds chunk pagesCount).map fun s =>
    let chunk := { chunk with freeTail := s.freeTail }
    match s.phase with
    | .found pageNum => (markRun chunk pageNum pagesCount, some pageNum)
    | _ => (chunk, none)

/-- `zend_mm_alloc_pages` in a chunk it has got from the cache or the system. -/
def allocNewChunk (chunk : Chunk) (pagesCount : ℕ) : Chunk × ℕ :=
  (markRun (chunkInit chunk) zendMmFirstPage pagesCount, zendMmFirstPage)

/-- `zend_mm_free_pages_ex`. -/
def freePagesEx (chunk : Chunk) (pageNum pagesCount : ℕ) : Chunk :=
  { freePages := chunk.freePages + pagesCount
    freeMap := bitsetResetRange chunk.freeMap pageNum pagesCount
    map := update chunk.map pageNum .frun
    freeTail := if chunk.freeTail = pageNum + pagesCount then pageNum else chunk.freeTail }

/-- `zend_mm_realloc_heap` of a large run to `newPagesCount` pages, if it is done in place. -/
def reallocLarge (chunk : Chunk) (pageNum newPagesCount : ℕ) : Option Chunk :=
  match chunk.map pageNum with
  | .frun => none
  | .lrun oldPagesCount =>
    if newPagesCount = oldPagesCount then some chunk
    else if newPagesCount < oldPagesCount then
      -- free tail pages
      let restPagesCount := oldPagesCount - newPagesCount
      some { chunk with
        map := update chunk.map pageNum (.lrun newPagesCount)
        freePages := chunk.freePages + restPagesCount
        freeMap := bitsetResetRange chunk.freeMap (pageNum + newPagesCount) restPagesCount }
    else if pageNum + newPagesCount ≤ zendMmPages ∧
        bitsetIsFreeRange chunk.freeMap (pageNum + oldPagesCount) (newPagesCount - oldPagesCount)
          = true then
      -- allocate tail pages after this block
      some { chunk with
        freePages := chunk.freePages - (newPagesCount - oldPagesCount)
        freeMap := bitsetSetRange chunk.freeMap (pageNum + oldPagesCount)
          (newPagesCount - oldPagesCount)
        map := update chunk.map pageNum (.lrun newPagesCount) }
    else none

end PhpInternals.Zend.ZendAlloc
