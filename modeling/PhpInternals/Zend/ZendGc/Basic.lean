import PhpInternals.Found.Ring

/-!
# The cycle collector

The reference-counted values, the root buffer and the three phases of `zend_gc.c`.

Recursion takes a depth bound and the loops over rings a step bound. A decrement of a count that is
zero, which would wrap around in the source, is an error here.
-/

namespace PhpInternals.Zend.ZendGc

open Found
open Function (update)

/-! ## The graph -/

/-- Colours. Source: `zend_gc.h` `GC_BLACK`, `GC_WHITE`, `GC_GREY`, `GC_PURPLE`. -/
inductive Color where
  | black
  | white
  | grey
  | purple
  deriving DecidableEq, Repr

/-- The two parts of `gc_info`: `GC_ADDRESS` and the colour. -/
@[ext]
structure GcInfo where
  address : ℕ
  color : Color
  deriving DecidableEq, Repr

/-- A value slot, as far as the collector looks at it. -/
inductive Zval (N : Type) where
  | undef
  | scalar
  | counted (ref : N)
  | indirect (zv : Zval N)
  deriving DecidableEq, Repr

variable {N : Type}

/-- `Z_COUNTED_P`, when `Z_REFCOUNTED_P` holds. -/
def Zval.counted? : Zval N → Option N
  | .counted ref => some ref
  | _ => none

/-- One step through `IS_INDIRECT`. -/
def Zval.deref : Zval N → Zval N
  | .indirect zv => zv
  | zv => zv

/-- What a non-refcounted slot adds to the number of collected values. Source: `gc_collect_white`.
-/
def Zval.weight : Zval N → ℕ
  | .undef => 0
  | _ => 1

/-- A reference-counted value: an object (`IS_OBJ_FREE_CALLED`, what its `get_gc` handler reports,
whether it has a destructor to call), an array with its used buckets, a reference, or a leaf. -/
inductive Refcounted (N : Type) where
  | object (freeCalled : Bool) (getGc : Option (List (Zval N) × Option (List (Zval N))))
      (destructor : Bool)
  | array (arData : List (Zval N))
  | reference (val : Zval N)
  | other

/-- The values, and which array is `EG(symbol_table)`. -/
structure Heap (N : Type) where
  node : N → Refcounted N
  symbolTable : Option N

/-! ## The collector's state -/

/-- Pointers to root buffers: the two ring heads, the slots of `GC_G(buf)`, and the slots of the
additional buffers, numbered from the oldest. Source: `zend_gc.h` `gc_root_buffer`. -/
inductive RootPtr where
  | null
  | roots
  | toFree
  | buf (i : ℕ)
  | additional (b i : ℕ)
  deriving DecidableEq, Repr

/-- Source: `GC_ROOT_BUFFER_MAX_ENTRIES`. -/
def gcRootBufferMaxEntries : ℕ := 10001

/-- Source: `GC_NUM_ADDITIONAL_ENTRIES`. -/
def gcNumAdditionalEntries : ℕ := (4096 - 8 * 2) / 32

/-- Reference counts, `gc_info` and `gc_globals`. The additional buffers are given by their `used`
counts, the newest first. Source: `zend_gc.h` `zend_gc_globals`. -/
structure GcState (N : Type) where
  refcount : N → ℕ
  info : N → GcInfo
  gcEnabled : Bool
  gcActive : Bool
  uncleanShutdown : Bool
  ref : RootPtr → Option N
  links : Links RootPtr
  unused : RootPtr
  firstUnused : ℕ
  lastUnused : ℕ
  nextToFree : RootPtr
  additionalBuffer : List ℕ

/-- The state that `gc_init` and `gc_reset` set up, with no value buffered. Source: `gc_init`,
`gc_reset`. -/
def gcInit (refcount : N → ℕ) : GcState N where
  refcount := refcount
  info := fun _ => ⟨0, .black⟩
  gcEnabled := true
  gcActive := false
  uncleanShutdown := false
  ref := fun _ => none
  links := ⟨id, id⟩
  unused := .null
  firstUnused := 1
  lastUnused := gcRootBufferMaxEntries
  nextToFree := .null
  additionalBuffer := []

/-- What can go wrong. -/
inductive GcError where
  | depth
  | steps
  | underflow
  | nullRef
  | notFound
  deriving DecidableEq, Repr

section Fields

variable [DecidableEq N]

/-- `GC_REF_SET_COLOR`. -/
def GcState.setColor (s : GcState N) (ref : N) (c : Color) : GcState N :=
  { s with info := update s.info ref { s.info ref with color := c } }

/-- `GC_INFO(ref) = address | color`. -/
def GcState.setInfo (s : GcState N) (ref : N) (info : GcInfo) : GcState N :=
  { s with info := update s.info ref info }

/-- `GC_REFCOUNT(ref)++`. -/
def GcState.incRef (s : GcState N) (ref : N) : GcState N :=
  { s with refcount := update s.refcount ref (s.refcount ref + 1) }

/-- `GC_REFCOUNT(ref)--`. -/
def GcState.decRef (s : GcState N) (ref : N) : Except GcError (GcState N) :=
  if s.refcount ref = 0 then .error .underflow
  else .ok { s with refcount := update s.refcount ref (s.refcount ref - 1) }

end Fields

/-- `current->ref`. -/
def GcState.refOf (s : GcState N) (p : RootPtr) : Except GcError N :=
  match s.ref p with
  | some ref => .ok ref
  | none => .error .nullRef

/-! ## The loops over the children -/

section Children

variable {σ ε : Type} (back skip : Zval N → σ → σ) (call : N → σ → Except ε σ)

/-- The loop that goes back from the end to the last refcounted slot. Takes the slots in reverse;
returns that slot's value and the slots before it, still in reverse. -/
def scanBack : List (Zval N) → σ → σ × Option (N × List (Zval N))
  | [], s => (s, none)
  | zv :: before, s =>
    match zv.counted? with
    | some ref => (s, some (ref, before))
    | none => scanBack before (back zv s)

/-- The loop over the slots before the last refcounted one. -/
def walkFront : List (Zval N) → σ → Except ε σ
  | [], s => .ok s
  | zv :: rest, s =>
    match zv.counted? with
    | some ref => call ref s >>= walkFront rest
    | none => walkFront rest (skip zv s)

/-- Both loops and the tail call. -/
def walkSlots (zvs : List (Zval N)) (s : σ) : Except ε σ :=
  match scanBack back zvs.reverse s with
  | (s, none) => .ok s
  | (s, some (ref, before)) => walkFront skip call before.reverse s >>= call ref

/-- The children of a value. While it goes back over the slots that `get_gc` returned, the source
looks at the first of them (`zv`, not `end`). -/
def walkNode (node : Refcounted N) (s : σ) : Except ε σ :=
  match node with
  | .object false (some (zvs, none)) _ =>
    walkSlots (fun _ => skip (zvs.headD .undef)) skip call zvs s
  | .object false (some (zvs, some ht)) _ =>
    walkFront skip call zvs s >>= walkSlots skip skip call (ht.map Zval.deref)
  | .object _ _ _ => .ok s
  | .array arData => walkSlots skip skip call (arData.map Zval.deref) s
  | .reference val =>
    match val.counted? with
    | some ref => call ref s
    | none => .ok s
  | .other => .ok s

end Children

/-! ## Marking and scanning -/

section Phases

variable [DecidableEq N] (h : Heap N)

/-- `(zend_array*)ref == &EG(symbol_table)`. -/
def Heap.isSymbolTable (ref : N) : Bool :=
  match h.node ref with
  | .array _ => h.symbolTable = some ref
  | _ => false

/-- Source: `gc_scan_black`. -/
def gcScanBlack : ℕ → N → GcState N → Except GcError (GcState N)
  | 0, _, _ => .error .depth
  | depth + 1, ref, s =>
    let s := s.setColor ref .black
    if h.isSymbolTable ref then .ok s
    else
      walkNode (fun _ s => s)
        (fun c s =>
          let s := s.incRef c
          if (s.info c).color ≠ .black then gcScanBlack depth c s else .ok s)
        (h.node ref) s

/-- Source: `gc_mark_grey`. -/
def gcMarkGrey : ℕ → N → GcState N → Except GcError (GcState N)
  | 0, _, _ => .error .depth
  | depth + 1, ref, s =>
    if (s.info ref).color ≠ .grey then
      let s := s.setColor ref .grey
      if h.isSymbolTable ref then .ok (s.setColor ref .black)
      else walkNode (fun _ s => s) (fun c s => s.decRef c >>= gcMarkGrey depth c) (h.node ref) s
    else .ok s

/-- The depth of `gc_scan_black` has its own bound. -/
def gcScan (black : ℕ) : ℕ → N → GcState N → Except GcError (GcState N)
  | 0, _, _ => .error .depth
  | depth + 1, ref, s =>
    if (s.info ref).color = .grey then
      if s.refcount ref > 0 then gcScanBlack h black ref s
      else
        let s := s.setColor ref .white
        if h.isSymbolTable ref then .ok (s.setColor ref .black)
        else walkNode (fun _ s => s) (fun c s => gcScan black depth c s) (h.node ref) s
    else .ok s

omit [DecidableEq N] in
/-- The loop over the roots of the first two phases. -/
def forRoots (body : N → GcState N → Except GcError (GcState N)) (steps : ℕ) (s : GcState N) :
    Except GcError (GcState N) :=
  ringWalk .steps .roots
    (fun current s => do
      let ref ← s.refOf current
      let s ← body ref s
      .ok (s, s.links.next current))
    steps (s.links.next .roots) s

/-- Source: `gc_mark_roots`. -/
def gcMarkRoots (depth steps : ℕ) (s : GcState N) : Except GcError (GcState N) :=
  forRoots
    (fun ref s => if (s.info ref).color = .purple then gcMarkGrey h depth ref s else .ok s) steps s

/-- Source: `gc_scan_roots`. -/
def gcScanRoots (depth steps : ℕ) (s : GcState N) : Except GcError (GcState N) :=
  forRoots (gcScan h depth depth) steps s

end Phases

/-! ## The root buffer -/

section RootBuffer

variable [DecidableEq N]

/-- `root - GC_G(buf)`. -/
def RootPtr.index : RootPtr → ℕ
  | .buf i => i
  | _ => 0

/-- The end of `gc_possible_root` and `gc_add_garbage`: store the value in a slot and link the slot
in behind the head of the roots. -/
def GcState.addRoot (s : GcState N) (root : RootPtr) (ref : N) (info : GcInfo) : GcState N :=
  { s with
    info := update s.info ref info
    ref := update s.ref root (some ref)
    links := s.links.insertAfter .roots root }

/-- Source: `gc_remove_from_roots`. -/
def gcRemoveFromRoots (root : RootPtr) (s : GcState N) : GcState N :=
  { s with links := (s.links.unlink root).setPrev root s.unused, unused := root }

/-- Source: `gc_remove_from_additional_roots`. -/
def gcRemoveFromAdditionalRoots (root : RootPtr) (s : GcState N) : GcState N :=
  { s with links := s.links.unlink root }

/-- `gc_collect_cycles` is a function pointer and comes in as an argument. What `zval_dtor_func`
does to the buffer, when the collection has left `ref` without references, are calls of their own.
-/
def gcPossibleRoot (gcCollectCycles : GcState N → Except GcError (GcState N)) (ref : N)
    (s : GcState N) : Except GcError (GcState N) :=
  if s.uncleanShutdown || s.gcActive then .ok s
  else if s.unused ≠ .null then
    let newRoot := s.unused
    let s := { s with unused := s.links.prev newRoot }
    .ok (s.addRoot newRoot ref ⟨newRoot.index, .purple⟩)
  else if s.firstUnused ≠ s.lastUnused then
    let newRoot := RootPtr.buf s.firstUnused
    let s := { s with firstUnused := s.firstUnused + 1 }
    .ok (s.addRoot newRoot ref ⟨newRoot.index, .purple⟩)
  else if !s.gcEnabled then .ok s
  else do
    let s ← gcCollectCycles (s.incRef ref)
    let s ← s.decRef ref
    if s.refcount ref = 0 then .ok s
    else if s.info ref ≠ ⟨0, .black⟩ then .ok s
    else if s.unused = .null then .ok s
    else
      let newRoot := s.unused
      let s := { s with unused := s.links.prev newRoot }
      .ok (s.addRoot newRoot ref ⟨newRoot.index, .purple⟩)

/-- The loop over the additional buffers, the newest first. -/
def gcFindAdditionalBuffer (ref : N) (s : GcState N) : List ℕ → Except GcError RootPtr
  | [] => .error .notFound
  | used :: rest =>
    let idx := (s.info ref).address - gcRootBufferMaxEntries
    if idx < used ∧ s.ref (.additional rest.length idx) = some ref then
      .ok (.additional rest.length idx)
    else gcFindAdditionalBuffer ref s rest

/-- Source: `gc_remove_from_buffer`. -/
def gcRemoveFromBuffer (ref : N) (s : GcState N) : Except GcError (GcState N) :=
  let removed :=
    if (s.info ref).address < gcRootBufferMaxEntries then
      let root := RootPtr.buf (s.info ref).address
      .ok (root, gcRemoveFromRoots root s)
    else
      (gcFindAdditionalBuffer ref s s.additionalBuffer).map fun root =>
        (root, gcRemoveFromAdditionalRoots root s)
  removed.map fun (root, s) =>
    let s := s.setInfo ref ⟨0, .black⟩
    if s.nextToFree = root then { s with nextToFree := s.links.next root } else s

/-- Source: `gc_add_garbage`. -/
def gcAddGarbage (ref : N) (s : GcState N) : GcState N :=
  if s.unused ≠ .null then
    let buf := s.unused
    let s := { s with unused := s.links.prev buf }
    s.addRoot buf ref ⟨buf.index, .black⟩
  else if s.firstUnused ≠ s.lastUnused then
    let buf := RootPtr.buf s.firstUnused
    let s := { s with firstUnused := s.firstUnused + 1 }
    s.addRoot buf ref ⟨buf.index, .black⟩
  else
    let (used, rest) :=
      match s.additionalBuffer with
      | [] => (0, [])
      | used :: rest => if used = gcNumAdditionalEntries then (0, used :: rest) else (used, rest)
    let buf := RootPtr.additional rest.length used
    let s := { s with additionalBuffer := (used + 1) :: rest }
    s.addRoot buf ref ⟨gcRootBufferMaxEntries + used, .black⟩

/-! ## Collecting -/

variable (h : Heap N)

/-- What `gc_collect_white` does to a value before it goes to the children: buffer it when it can be
freed and is not buffered, and note destructors. -/
def enterGarbage (ref : N) : GcState N × Bool → GcState N × Bool
  | (s, flags) =>
    match h.node ref with
    | .object false (some _) destructor =>
      (if s.info ref = ⟨0, .black⟩ then gcAddGarbage ref s else s, flags || destructor)
    | .array _ => (if s.info ref = ⟨0, .black⟩ then gcAddGarbage ref s else s, flags)
    | _ => (s, flags)

/-- A collected value counts, unless it is a reference. Source: `gc_collect_white`. -/
def Refcounted.weight : Refcounted N → ℕ
  | .reference _ => 0
  | _ => 1

/-- The state with `GC_HAS_DESTRUCTORS`, and the number of values collected. -/
def gcCollectWhite : ℕ → N → GcState N × Bool → Except GcError ((GcState N × Bool) × ℕ)
  | 0, _, _ => .error .depth
  | depth + 1, ref, (s, flags) =>
    if (s.info ref).color = .white then
      let s := s.setColor ref .black
      walkNode (fun zv r => (r.1, r.2 + zv.weight))
        (fun c r => do
          let (s', count) ← gcCollectWhite depth c (r.1.1.incRef c, r.1.2)
          .ok (s', r.2 + count))
        (h.node ref) (enterGarbage h ref (s, flags), (h.node ref).weight)
    else .ok ((s, flags), 0)

/-- One root in the loop that removes what turned out not to be garbage. Source: `gc_collect_roots`.
-/
def removeIfBlack (current : RootPtr) (ref : N) (s : GcState N) : GcState N :=
  if (s.info ref).color = .black then
    let s :=
      if (s.info ref).address < gcRootBufferMaxEntries then gcRemoveFromRoots current s
      else gcRemoveFromAdditionalRoots current s
    s.setInfo ref ⟨0, .black⟩
  else s

/-- One root in the loop that collects. Source: `gc_collect_roots`. -/
def collectIfWhite (depth : ℕ) (ref : N) (r : (GcState N × Bool) × ℕ) :
    Except GcError ((GcState N × Bool) × ℕ) :=
  if (r.1.1.info ref).color = .white then
    (gcCollectWhite h depth ref r.1).map fun (r', count) => (r', r.2 + count)
  else .ok r

/-- The remaining roots become the list to free, or its end. Source: `gc_collect_roots`. -/
def relinkRoots (L : Links RootPtr) : Links RootPtr :=
  if L.next .roots ≠ .roots then
    let L :=
      if L.next .toFree = .toFree then
        let L := L.setNext .toFree (L.next .roots)
        let L := L.setPrev .toFree (L.prev .roots)
        let L := L.setPrev (L.next .toFree) .toFree
        L.setNext (L.prev .toFree) .toFree
      else
        let L := L.setNext (L.prev .toFree) (L.next .roots)
        let L := L.setPrev (L.next .roots) (L.prev .toFree)
        let L := L.setNext (L.prev .roots) .toFree
        L.setPrev .toFree (L.prev .roots)
    (L.setNext .roots .roots).setPrev .roots .roots
  else L

/-- The body of the first loop. Source: `gc_collect_roots`. -/
def pruneRoot (current : RootPtr) (s : GcState N) : Except GcError (GcState N × RootPtr) := do
  let next := s.links.next current
  let ref ← s.refOf current
  .ok (removeIfBlack current ref s, next)

/-- The body of the second loop. Source: `gc_collect_roots`. -/
def collectRoot (depth : ℕ) (current : RootPtr) (r : (GcState N × Bool) × ℕ) :
    Except GcError (((GcState N × Bool) × ℕ) × RootPtr) := do
  let ref ← r.1.1.refOf current
  let r ← collectIfWhite h depth ref r
  .ok (r, r.1.1.links.next current)

/-- Source: `gc_collect_roots`. -/
def gcCollectRoots (depth steps : ℕ) (s : GcState N) (flags : Bool) :
    Except GcError ((GcState N × Bool) × ℕ) := do
  let s ← ringWalk .steps .roots pruneRoot steps (s.links.next .roots) s
  let r ← ringWalk .steps .roots (collectRoot h depth) steps (s.links.next .roots) ((s, flags), 0)
  .ok (({ r.1.1 with links := relinkRoots r.1.1.links }, r.1.2), r.2)

end RootBuffer

end PhpInternals.Zend.ZendGc
