import PhpInternals.Found.Ring

/-!
# The object store

`Zend/zend_objects_API.c`: the table from handles to objects, with a free list that runs through the
entries of the table itself.
-/

namespace PhpInternals.Zend.ZendObjectsApi

open Found
open Function (update)

/-! ## Entries -/

/-- An address, or an entry of the table. -/
abbrev Ptr := BitVec 64

/-- Source: `IS_OBJ_VALID`. -/
def isObjValid (o : Ptr) : Prop := o &&& 1#64 = 0#64

instance (o : Ptr) : Decidable (isObjValid o) := inferInstanceAs (Decidable (_ = _))

/-- Source: `SET_OBJ_INVALID`. -/
def setObjInvalid (o : Ptr) : Ptr := o ||| 1#64

/-- Source: `GET_OBJ_BUCKET_NUMBER`. -/
def getObjBucketNumber (o : Ptr) : ℤ := (o.sshiftRight 1).toInt

/-- Source: `SET_OBJ_BUCKET_NUMBER`. -/
def setObjBucketNumber (n : ℤ) : Ptr := (BitVec.ofInt 64 n <<< 1) ||| 1#64

/-! ## State -/

/-- An object. `hasDtor` says that there is a destructor to run: `dtor_obj` is set, and it is not
`zend_objects_destroy_object` for a class without a destructor. The last two fields count the calls
of the handlers. Source: `zend_types.h` `struct _zend_object`. -/
structure Obj where
  handle : ℕ
  refcount : ℕ
  destructorCalled : Bool
  freeCalled : Bool
  hasDtor : Bool
  hasFree : Bool
  dtorRuns : ℕ
  freeRuns : ℕ

namespace Obj

/-- `GC_REFCOUNT(object)--`. -/
def decRef (o : Obj) : Obj := { o with refcount := o.refcount - 1 }

/-- `GC_FLAGS(object) |= IS_OBJ_DESTRUCTOR_CALLED`. -/
def markDtor (o : Obj) : Obj := { o with destructorCalled := true }

/-- `GC_FLAGS(object) |= IS_OBJ_FREE_CALLED`. -/
def markFree (o : Obj) : Obj := { o with freeCalled := true }

/-- `GC_REFCOUNT(object)++`, and `dtor_obj` is called. -/
def callDtor (o : Obj) : Obj :=
  { o.markDtor with refcount := o.refcount + 1, dtorRuns := o.dtorRuns + 1 }

/-- `GC_REFCOUNT(object)++`, and `free_obj` is called. -/
def callFree (o : Obj) : Obj :=
  { o.markFree with refcount := o.refcount + 1, freeRuns := o.freeRuns + 1 }

end Obj

/-- A handler that is running, with the rest of the function that called it: `dtor_obj` and
`free_obj` from `zend_objects_store_del`, and `dtor_obj` from `zend_objects_store_call_destructors`
at an index. -/
inductive Frame where
  | dtor (object : Ptr)
  | free (object : Ptr) (handle : ℕ)
  | destructors (object : Ptr) (i : ℕ)
  deriving DecidableEq

/-- The store, the objects in memory by their addresses, and the handlers that are running, the last
one first. Source: `zend_objects_API.h` `struct _zend_objects_store`. -/
structure Store where
  objectBuckets : ℕ → Ptr
  top : ℕ
  size : ℕ
  freeListHead : ℤ
  inShutdown : Bool
  obj : Ptr → Option Obj
  stack : List Frame

/-- An object that is not there any more is read, or an entry outside of the table is written. -/
inductive StoreFault where
  | freed
  | outOfTable
  deriving DecidableEq

namespace Store

/-- `*object`. -/
def readObj (s : Store) (object : Ptr) : Except StoreFault Obj :=
  match s.obj object with
  | some o => .ok o
  | none => .error .freed

def setObj (s : Store) (object : Ptr) (o : Obj) : Store :=
  { s with obj := update s.obj object (some o) }

/-- `EG(objects_store).object_buckets[handle] = o`. -/
def setBucket (s : Store) (handle : ℕ) (o : Ptr) : Store :=
  { s with objectBuckets := update s.objectBuckets handle o }

def push (s : Store) (frame : Frame) : Store := { s with stack := frame :: s.stack }

end Store

/-- `zend_objects_store_init`. -/
def Store.init (initSize : ℕ) : Store where
  objectBuckets _ := 0#64
  top := 1
  size := initSize
  freeListHead := -1
  inShutdown := false
  obj _ := none
  stack := []

/-! ## Creating objects -/

/-- `if (top == size)`; `size` has 32 bits. Source: `zend_objects_store_put`. -/
def growIfFull (s : Store) : Store :=
  if s.top = s.size then { s with size := s.size * 2 % 2 ^ 32 } else s

/-- `object->handle = handle; object_buckets[handle] = object;`. Source: `zend_objects_store_put`.
-/
def place (s : Store) (object : Ptr) (handle : ℤ) : Except StoreFault Store := do
  let o ← s.readObj object
  if 0 ≤ handle ∧ handle < s.size then
    return (s.setObj object { o with handle := handle.toNat }).setBucket handle.toNat object
  else throw .outOfTable

/-- `zend_objects_store_put`. The `int handle` is read off an `uint32_t top`. -/
def put (s : Store) (object : Ptr) : Except StoreFault Store :=
  if s.inShutdown = false ∧ s.freeListHead ≠ -1 then
    let handle := s.freeListHead
    place { s with freeListHead := getObjBucketNumber (s.objectBuckets handle.toNat) } object handle
  else
    let s := growIfFull s
    place { s with top := (s.top + 1) % 2 ^ 32 } object (Int.bmod s.top (2 ^ 32))

/-! ## Deleting objects -/

/-- The end of `zend_objects_store_del`: the memory is freed and the handle goes to the free list.
Source: `zend_objects_store_del`, `ZEND_OBJECTS_STORE_ADD_TO_FREE_LIST`. -/
def delFinish (s : Store) (object : Ptr) (handle : ℕ) : Store :=
  { s with
    obj := update s.obj object none
    objectBuckets := update s.objectBuckets handle (setObjBucketNumber s.freeListHead)
    freeListHead := handle }

/-- `zend_objects_store_del` once the destructor has run. -/
def delFree (s : Store) (object : Ptr) : Except StoreFault Store := do
  let o ← s.readObj object
  if o.refcount = 0 then
    let s := s.setBucket o.handle (setObjInvalid object)
    if o.freeCalled then return delFinish s object o.handle
    else if o.hasFree then return (s.setObj object o.callFree).push (.free object o.handle)
    else return delFinish (s.setObj object o.markFree) object o.handle
  else return s

/-- `zend_objects_store_del`. -/
def del (s : Store) (object : Ptr) : Except StoreFault Store := do
  let o ← s.readObj object
  if isObjValid (s.objectBuckets o.handle) then
    if o.refcount = 0 then
      if o.destructorCalled then delFree s object
      else if o.hasDtor then return (s.setObj object o.callDtor).push (.dtor object)
      else delFree (s.setObj object o.markDtor) object
    else return s.setObj object o.decRef
  else return s

/-- `GC_REFCOUNT(object)--`. -/
def decRefcount (s : Store) (object : Ptr) : Except StoreFault Store := do
  let o ← s.readObj object
  return s.setObj object o.decRef

/-- Source: `zend_objects_API.h` `zend_object_release`. -/
def release (s : Store) (object : Ptr) : Except StoreFault Store := do
  let s ← decRefcount s object
  let o ← s.readObj object
  if o.refcount = 0 then del s object else return s

/-! ## Destructors at shutdown -/

/-- The loop from index `i` on, with a bound on its rounds. Between two handlers `top` does not
change, so that `top` rounds are enough. Source: `zend_objects_store_call_destructors`. -/
def destructorsFrom (s : Store) : ℕ → ℕ → Except StoreFault Store
  | 0, _ => return s
  | n + 1, i =>
    if i < s.top then
      if isObjValid (s.objectBuckets i) then do
        let o ← s.readObj (s.objectBuckets i)
        if o.destructorCalled then destructorsFrom s n (i + 1)
        else if o.hasDtor then
          return (s.setObj (s.objectBuckets i) o.callDtor).push (.destructors (s.objectBuckets i) i)
        else destructorsFrom (s.setObj (s.objectBuckets i) o.markDtor) n (i + 1)
      else destructorsFrom s n (i + 1)
    else return s

/-- `zend_objects_store_call_destructors`. -/
def callDestructors (s : Store) : Except StoreFault Store := destructorsFrom s s.top 1

/-! ## Handlers return -/

/-- The last handler returns to the function that called it. -/
def handlerReturns (s : Store) : Except StoreFault Store :=
  match s.stack with
  | [] => return s
  | .dtor object :: stack => do
    let s ← decRefcount { s with stack := stack } object
    delFree s object
  | .free object handle :: stack => do
    let s ← decRefcount { s with stack := stack } object
    return delFinish s object handle
  | .destructors object i :: stack => do
    let s ← decRefcount { s with stack := stack } object
    destructorsFrom s s.top (i + 1)

/-! ## Programs -/

/-- What a script or a handler does: it creates an object at an address, takes or releases a
reference, or returns, if it is a handler; it starts the destructors, and sets or clears
`EG_FLAGS_IN_SHUTDOWN`. Source: `zend_objects_API.c`, `zend_objects.c`. -/
inductive Action where
  | create (object : Ptr) (hasDtor hasFree : Bool)
  | addRef (object : Ptr)
  | release (object : Ptr)
  | handlerReturns
  | callDestructors
  | setShutdown (flag : Bool)

/-- Source: `zend_objects_API.c`, `zend_objects.c` `zend_objects_new`. -/
def exec (s : Store) : Action → Except StoreFault Store
  | .create object hasDtor hasFree =>
    put (s.setObj object ⟨0, 1, false, false, hasDtor, hasFree, 0, 0⟩) object
  | .addRef object => do
    let o ← s.readObj object
    return s.setObj object { o with refcount := o.refcount + 1 }
  | .release object => release s object
  | .handlerReturns => handlerReturns s
  | .callDestructors => callDestructors s
  | .setShutdown flag => return { s with inShutdown := flag }

/-- The object whose `free_obj` is running. -/
def Frame.freeing : Frame → Option Ptr
  | .free object _ => some object
  | _ => none

/-- Whether the caller holds a reference to an object while its destructor runs. -/
def Frame.holds (object : Ptr) : Frame → Bool
  | .dtor o => o == object
  | .destructors o _ => o == object
  | .free _ _ => false

/-- The objects whose `free_obj` is running. -/
def Store.beingFreed (s : Store) : List Ptr := s.stack.filterMap Frame.freeing

/-- The references to an object that the functions of the store hold. -/
def Store.held (s : Store) (object : Ptr) : ℕ := s.stack.countP (Frame.holds object)

/-- An object that is there and whose `free_obj` is not running. -/
def Store.Live (s : Store) (object : Ptr) (o : Obj) : Prop :=
  s.obj object = some o ∧ object ∉ s.beingFreed

/-- What a program can do: memory for an object is new and aligned; references are taken to live
objects only, and a reference that is released is one the program has. -/
def Store.Allows (s : Store) : Action → Prop
  | .create object _ _ => s.obj object = none ∧ isObjValid object
  | .addRef object => ∃ o, s.Live object o
  | .release object => ∃ o, s.Live object o ∧ s.held object < o.refcount
  | _ => True

/-- The first number that is not an `int`. -/
def handleLimit : ℕ := 2 ^ 31

/-- An object is created while no handle can be used again and `top` is not an `int` any more. -/
def Store.Overruns (s : Store) : Action → Prop
  | .create _ _ _ => ¬ (s.inShutdown = false ∧ s.freeListHead ≠ -1) ∧ s.top = handleLimit
  | _ => False

/-- The states between actions: outside of the functions of the store. -/
inductive Reaches (initSize : ℕ) : Store → Prop
  | start : Reaches initSize (Store.init initSize)
  | step {s s' : Store} {a : Action} (h : Reaches initSize s) (hallows : s.Allows a)
      (hstep : exec s a = .ok s') : Reaches initSize s'

end PhpInternals.Zend.ZendObjectsApi
