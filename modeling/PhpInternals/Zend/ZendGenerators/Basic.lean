import PhpInternals.Found.Except
import PhpInternals.Found.Forest

/-!
# The tree of delegating generators

The functions of `Zend/zend_generators.c` that maintain the tree of generators in `yield from`. A
generator's parent is the generator it delegates to.
-/

namespace PhpInternals.Zend.ZendGenerators

open Function (update)

/-- What goes wrong where the source has no defined behaviour. -/
inductive GenError where
  /-- `ZEND_ASSERT(0)`: no matching child; without assertions a hash table is read where there is
  none -/
  | noMatchingChild
  | nullPointer
  | outOfSteps
  deriving DecidableEq

/-- A pair of a leaf and the child towards it. -/
structure Entry (G : Type) where
  leaf : G
  child : G
  deriving DecidableEq

/-- The union `child`: the first `children` places of the array, or the hash table, with the leaves
as keys. -/
inductive ChildStore (G : Type) where
  | array (entries : List (Entry G))
  | ht (entries : List (Entry G))
  deriving DecidableEq

/-- A node. `ptr` is the union of `leaf`, if there are children, and `root`, if there are none;
`executeData` says whether the generator can still run. Source: `zend_generators.h` `struct
_zend_generator_node`. -/
structure Node (G : Type) where
  parent : Option G
  children : ℕ
  child : ChildStore G
  ptr : G
  executeData : Bool
  deriving DecidableEq

variable {G : Type}

abbrev State (G : Type) : Type :=
  G → Node G

/-- Generators that have not delegated yet. Source: `zend_generator_create`. -/
def fresh : State G := fun g => ⟨none, 0, .array [], g, true⟩

/-- The entries, in whichever form. -/
def ChildStore.entries : ChildStore G → List (Entry G)
  | .array es => es
  | .ht es => es

variable [DecidableEq G]

/-! ## Lists of leaves -/

/-- `zend_hash_index_find_ptr`, and the comparisons from the last place of the array on. Source:
`zend_generator_get_child`. -/
def lookup (es : List (Entry G)) (leaf : G) : Option G :=
  (es.find? fun e => e.leaf = leaf).map Entry.child

/-- The child towards a leaf, `NULL` if there is none. Source: `zend_generator_get_child`. -/
def getChild (node : Node G) (leaf : G) : Except GenError (Option G) :=
  match node.children, node.child with
  | 0, _ => .ok none
  | 1, .array (e :: _) => .ok (some e.child)
  | _, .array es => match lookup es.reverse leaf with
    | some c => .ok (some c)
    | none => .error .noMatchingChild
  | _, .ht es => .ok (lookup es leaf)

/-- Down to the first node that has several children, if there is one. Source:
`zend_generator_search_multi_children_node`. -/
def searchMultiChildrenNode (s : State G) : ℕ → G → Except GenError (Option G)
  | 0, _ => .error .outOfSteps
  | steps + 1, g =>
    if (s g).children = 1 then
      match (s g).child.entries.head? with
      | some e => searchMultiChildrenNode s steps e.child
      | none => .error .nullPointer
    else .ok (if 1 < (s g).children then some g else none)

/-- `zend_hash_index_add_ptr`: a key that is there stays. -/
def htAdd (es : List (Entry G)) (e : Entry G) : List (Entry G) :=
  if (lookup es e.leaf).isSome then es else es ++ [e]

/-- `zend_generator_add_single_child`. -/
def addSingleChild (node : Node G) (child leaf : G) : Node G :=
  { node with
    child :=
      if node.children < 4 then .array (node.child.entries.take node.children ++ [⟨leaf, child⟩])
      else if 4 < node.children then .ht (htAdd node.child.entries ⟨leaf, child⟩)
      else .ht (htAdd (node.child.entries.foldl htAdd []) ⟨leaf, child⟩)
    children := node.children + 1 }

/-- The leaves a node lists, in the order in which they are merged. Source:
`zend_generator_merge_child_nodes`. -/
def Node.leaves (node : Node G) : List G :=
  if node.children ≤ 4 then (node.child.entries.map Entry.leaf).reverse
  else node.child.entries.map Entry.leaf

/-- `zend_generator_merge_child_nodes`. -/
def mergeChildNodes (dest src : Node G) (child : G) : Node G :=
  src.leaves.foldl (fun dest leaf => addSingleChild dest child leaf) dest

/-! ## Adding a child -/

/-- A walk to the root, from the parent of `cur` on: `f` gets the node before and the node it
changes. Source: `zend_generator_add_child`. -/
def climb (f : G → Node G → Except GenError (Node G)) :
    ℕ → G → State G → Except GenError (State G)
  | 0, _, _ => .error .outOfSteps
  | steps + 1, cur, s => match (s cur).parent with
    | none => .ok s
    | some p => f cur (s p) >>= fun node => climb f steps p (update s p node)

/-- The last entry of a leaf in an array gets another leaf. Source: `ZEND_GEN_UPDATE_CHILD`. -/
def replaceLast (old new : G) : List (Entry G) → Option (List (Entry G))
  | [] => none
  | e :: es => match replaceLast old new es with
    | some es' => some (e :: es')
    | none => if e.leaf = old then some (⟨new, e.child⟩ :: es) else none

/-- What the first walk does to a node above `generator`, which is no leaf any more. Source:
`zend_generator_add_child`. -/
def relabel (generator leaf : G) (node : Node G) : Except GenError (Node G) :=
  if 4 < node.children then
    match lookup node.child.entries generator with
    | some c => .ok { node with
        child := .ht (htAdd (node.child.entries.filter fun e => e.leaf ≠ generator) ⟨leaf, c⟩)
        ptr := leaf }
    | none => .error .nullPointer
  else if 1 < node.children then
    match replaceLast generator leaf node.child.entries with
    | some es => .ok { node with child := .array es, ptr := leaf }
    | none => .error .noMatchingChild
  else .ok { node with ptr := leaf }

/-- What the second walk does to a node above. `multi` is the node whose leaves are merged, if there
is one. Source: `zend_generator_add_child`. -/
def spread (leaf : G) (multi : Option (Node G)) (cur : G) (node : Node G) : Node G :=
  if 1 < node.children then
    match multi with
    | some src => mergeChildNodes node src cur
    | none => addSingleChild node cur leaf
  else node

/-- The first part for a leaf: it gets one, which has its root, and is replaced by it in the lists
above. Source: `zend_generator_add_child`. -/
def leafGetsChild (steps : ℕ) (generator child leaf : G) (s : State G) :
    Except GenError (State G) :=
  let s := update s leaf { s leaf with ptr := (s generator).ptr }
  let s := update s generator { s generator with ptr := leaf }
  climb (fun _ => relabel generator leaf) steps generator s >>= fun s =>
    .ok (update s generator (addSingleChild (s generator) child leaf))

/-- The first part for a generator with one child: it gets a list of its own. Source:
`zend_generator_add_child`. -/
def listSingleChild (steps : ℕ) (generator : G) (s : State G) : Except GenError (State G) :=
  searchMultiChildrenNode s steps generator >>= fun multi => match multi with
    | some m => match (s generator).child.entries.head? with
      | some e => .ok (update s generator
          (mergeChildNodes { s generator with children := 0 } (s m) e.child))
      | none => .error .nullPointer
    | none => .ok s

/-- `zend_generator_add_child`. -/
def addChild (steps : ℕ) (generator child : G) (s : State G) : Except GenError (State G) :=
  let leaf := if (s child).children = 0 then child else (s child).ptr
  let wasLeaf := (s generator).children = 0
  (if wasLeaf then leafGetsChild steps generator child leaf s
    else if (s generator).children = 1 then listSingleChild steps generator s
    else .ok s) >>= fun s =>
  searchMultiChildrenNode s steps child >>= fun multi =>
  -- 0x1 stands for "not searched yet", and then the generator itself gets one entry
  let own := match multi with
    | some m => if wasLeaf then addSingleChild (s generator) child leaf
        else mergeChildNodes (s generator) (s m) child
    | none => addSingleChild (s generator) child leaf
  climb (fun cur node => .ok (spread leaf (multi.map s) cur node)) steps generator
    (update s generator own)

/-! ## The generator that runs -/

/-- `do root = root->node.parent; while (root->node.parent);` Source:
`zend_generator_update_current`. -/
def topOf (s : State G) : ℕ → G → Except GenError G
  | 0, _ => .error .outOfSteps
  | steps + 1, g => match (s g).parent with
    | none => .ok g
    | some p => topOf s steps p

/-- Down from a root that has stopped. Source: `zend_generator_update_current`. -/
def descend (s : State G) (generator leaf : G) : ℕ → G → Except GenError G
  | 0, _ => .error .outOfSteps
  | steps + 1, root =>
    if !(s root).executeData && root ≠ generator then
      getChild (s root) leaf >>= fun c => match c with
        | some c => descend s generator leaf steps c
        | none => .error .nullPointer
    else .ok root

/-- The root is looked up again for `leaf`. What is thrown into a generator whose delegate was
aborted, and reference counts, are left out. Source: `zend_generator_update_current`. -/
def updateCurrent (steps : ℕ) (generator leaf : G) (s : State G) : Except GenError (State G) :=
  (if (s leaf).ptr ≠ generator then getChild (s (s leaf).ptr) leaf
    else .ok (some generator)) >>= fun first => match first with
  | none => .error .nullPointer
  | some first => descend s generator leaf steps first >>= fun root =>
    match (s root).parent with
    | none => .ok (update s leaf { s leaf with ptr := root })
    | some p =>
      if (s p).executeData then
        topOf s steps root >>= fun top =>
          .ok (update s leaf { s leaf with ptr := top })
      else
        let s := update s root { s root with parent := none }
        .ok (update s leaf { s leaf with ptr := root })

/-- Source: `zend_generators.h` `zend_generator_get_current`. -/
def getCurrent (steps : ℕ) (generator : G) (s : State G) : Except GenError (State G) :=
  if (s generator).parent = none then .ok s
  else
    let leaf := if (s generator).children = 0 then generator else (s generator).ptr
    if (s (s leaf).ptr).executeData ∧ (s (s leaf).ptr).parent = none then .ok s
    else updateCurrent steps generator leaf s

/-- `generator` delegates to `source`. Source: `zend_generator_yield_from`. -/
def yieldFrom (steps : ℕ) (generator source : G) (s : State G) : Except GenError (State G) :=
  addChild steps source generator s >>= fun s =>
    getCurrent steps generator
      (update s generator { s generator with parent := some source })

end PhpInternals.Zend.ZendGenerators
