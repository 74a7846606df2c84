import Libcbor.Data

/-! The item operations that `cbor_copy` and `cbor_copy_definite` call. Their bodies are
not among the sources, so each follows the spec: constructors return a fresh item with
count one or `NULL` (leaving nothing behind), mutators adopt a reference, and
`cbor_decref` frees recursively when a count reaches zero. Every allocator call,
`realloc` included, consults the failure schedule of the heap. -/
namespace Libcbor

variable {α β : Type}

namespace Mem

theorem bind_apply (x : Mem α) (f : α → Mem β) (h : Heap) :
    (x >>= f) h = match x h with | .ok (a, h') => f a h' | .error e => .error e := by
  show StateT.bind x f h = _
  simp only [StateT.bind]
  cases x h <;> rfl

theorem map_apply (f : α → β) (x : Mem α) (h : Heap) :
    (f <$> x) h = match x h with | .ok (a, h') => .ok (f a, h') | .error e => .error e := by
  show StateT.map f x h = _
  simp only [StateT.map]
  cases x h <;> rfl

theorem bind_ok {x : Mem α} {f : α → Mem β} {h h' : Heap} {a : α}
    (hx : x h = .ok (a, h')) : (x >>= f) h = f a h' := by
  rw [bind_apply, hx]

theorem bind_error {x : Mem α} {f : α → Mem β} {h : Heap} {e : Fault}
    (hx : x h = .error e) : (x >>= f) h = .error e := by
  rw [bind_apply, hx]

@[simp] theorem pure_apply (a : α) (h : Heap) : (pure a : Mem α) h = .ok (a, h) := rfl
@[simp] theorem throw_apply (e : Fault) (h : Heap) : (throw e : Mem α) h = .error e := rfl
@[simp] theorem get_apply (h : Heap) : (get : Mem Heap) h = .ok (h, h) := rfl
@[simp] theorem modify_apply (f : Heap → Heap) (h : Heap) :
    (modify f : Mem Unit) h = .ok ((), f h) := rfl

end Mem

namespace Heap

/-- The `length` bytes that `memcpy` reads from `handle`; nothing is read for length zero. -/
def bytesAt (h : Heap) (handle : Option Nat) (length : Nat) : Option (List UInt8) :=
  if length = 0 then some [] else
  match handle with
  | some b =>
    match h.mem b with
    | some (.bytes bs) => if length ≤ bs.length then some (bs.take length) else none
    | _ => none
  | none => none

end Heap

/-- The items an item holds references to, in the order `cbor_decref` releases them. -/
def ItemData.children : ItemData → List Nat
  | .str _ (.indefinite chunks) => chunks
  | .array _ items => items
  | .map _ pairs => pairs.flatMap fun kv => kv.1 :: kv.2.toList
  | .tag _ item => item.toList
  | _ => []

/-- The byte buffer an item owns. -/
def ItemData.buffer : ItemData → Option Nat
  | .str _ (.definite handle _) => handle
  | _ => none

end Libcbor

namespace Libcbor.Ops

/-- The buffer `buf` after `memcpy` of `bs` to offset `offset`. -/
def writeBytes (buf : List UInt8) (offset : Nat) (bs : List UInt8) : List UInt8 :=
  buf.take offset ++ bs ++ buf.drop (offset + bs.length)

/-- Reading an item: a dead block or a byte buffer in its place is a fault. -/
def getItem (p : Nat) : Mem ItemData := fun h =>
  match h.mem p with
  | some (.item d) => .ok (d, h)
  | _ => .error .badItem

def setItem (p : Nat) (d : ItemData) : Mem Unit := modify (·.modify p fun _ => .item d)

/-- One call to the installed allocator, placing `b` with count `rc`. -/
def allocBlock (b : Block) (rc : Nat) : Mem (Option Nat) := fun h =>
  if h.allocFails h.calls then .ok (none, h.tick) else .ok (some h.next, h.alloc b rc)

/-- One `realloc` of a container's storage; `false` when the allocator fails. -/
def reallocOk : Mem Bool := fun h => .ok (!h.allocFails h.calls, h.tick)

/-- Modelled from the spec: `_cbor_malloc`, an uninitialised buffer of `size` bytes or `NULL`. -/
def cborMalloc (size : Nat) : Mem (Option Nat) := allocBlock (.bytes (List.replicate size 0)) 0

/-- Modelled from the spec: `_cbor_free`. -/
def cborFree (p : Nat) : Mem Unit := modify (·.free p)

/-- Modelled from the spec: every item constructor allocates the item with count one,
or returns `NULL` having allocated nothing. -/
def newItem (d : ItemData) : Mem (Option Nat) := allocBlock (.item d) 1

/-- Modelled from the spec: `cbor_incref`. -/
def cborIncref (p : Nat) : Mem Nat := do
  let _ ← getItem p
  modify fun h => h.setRefcount p (h.refcount p + 1)
  return p

/-- Modelled from the spec: `cbor_move` drops one count and never frees. -/
def cborMove (p : Nat) : Mem Nat := do
  let _ ← getItem p
  modify fun h => h.setRefcount p (h.refcount p - 1)
  return p

/-- `_cbor_free` of the buffer an item owns, if it owns one. -/
def freeBuffer (d : ItemData) : Mem Unit :=
  match d.buffer with
  | some b => cborFree b
  | none => pure ()

/-- Modelled from the spec: what `cbor_decref` releases when an item's count reaches
zero: its buffer, and one reference to every child. -/
def releaseData (decref : Nat → Mem Unit) (d : ItemData) : Mem Unit := do
  freeBuffer d
  d.children.forM decref

/-- Modelled from the spec: `cbor_decref`, recursive through `releaseData`, with a bound
on the depth of the recursion. -/
def cborDecrefAux : Nat → Nat → Mem Unit
  | 0, _ => throw .outOfFuel
  | fuel + 1, p => do
    let d ← getItem p
    let rc := (← get).refcount p
    if rc = 0 then throw .assertion
    modify fun h => h.setRefcount p (rc - 1)
    if rc = 1 then
      releaseData (cborDecrefAux fuel) d
      cborFree p

/-- `cbor_decref`: an acyclic graph is never deeper than the number of addresses handed out. -/
def cborDecref (p : Nat) : Mem Unit := fun h => cborDecrefAux h.next p h

/-- Modelled from the spec: whether a container takes one more entry. A definite one has
a preallocated size; an indefinite one grows by `realloc`, which may fail. -/
def hasRoom : Dst → Nat → Mem Bool
  | .definite allocated, size => pure (decide (size < allocated))
  | .indefinite, _ => reallocOk

/-- Modelled from the spec: `cbor_array_push` appends and adopts a reference. -/
def cborArrayPush (array pushee : Nat) : Mem Bool := do
  match ← getItem array with
  | .array dst items =>
    if ← hasRoom dst items.length then
      setItem array (.array dst (items ++ [pushee]))
      let _ ← cborIncref pushee
      return true
    else return false
  | _ => throw .badItem

/-- Modelled from the spec: `cbor_map_add` appends a pair and adopts both references. -/
def cborMapAdd (map key value : Nat) : Mem Bool := do
  match ← getItem map with
  | .map dst pairs =>
    if ← hasRoom dst pairs.length then
      setItem map (.map dst (pairs ++ [(key, some value)]))
      let _ ← cborIncref key
      let _ ← cborIncref value
      return true
    else return false
  | _ => throw .badItem

/-- Modelled from the spec: adding a chunk to an indefinite string, adopting a reference. -/
def addChunk (item chunk : Nat) : Mem Bool := do
  match ← getItem item with
  | .str k (.indefinite chunks) =>
    if ← reallocOk then
      setItem item (.str k (.indefinite (chunks ++ [chunk])))
      let _ ← cborIncref chunk
      return true
    else return false
  | _ => throw .badItem

/-- Modelled from the spec: `cbor_bytestring_add_chunk`. -/
def cborBytestringAddChunk (item chunk : Nat) : Mem Bool := addChunk item chunk
/-- Modelled from the spec: `cbor_string_add_chunk`. -/
def cborStringAddChunk (item chunk : Nat) : Mem Bool := addChunk item chunk

/-- Modelled from the spec: installing a buffer as the data of a definite string. -/
def setHandle (item : Option Nat) (data length : Nat) : Mem Unit := do
  match item with
  | none => throw .nullItem
  | some p =>
    match ← getItem p with
    | .str k (.definite _ _) => setItem p (.str k (.definite (some data) length))
    | _ => throw .badItem

/-- Modelled from the spec: `cbor_bytestring_set_handle`. -/
def cborBytestringSetHandle (item : Option Nat) (data length : Nat) : Mem Unit :=
  setHandle item data length
/-- Modelled from the spec: `cbor_string_set_handle`. -/
def cborStringSetHandle (item : Option Nat) (data length : Nat) : Mem Unit :=
  setHandle item data length

/-- `memcpy(dest + offset, src, length)` into the buffer at `dest`. -/
def memcpy (dest offset : Nat) (src : Option Nat) (length : Nat) : Mem Unit := fun h =>
  match h.bytesAt src length, h.mem dest with
  | some bs, some (.bytes buf) =>
    if offset + length ≤ buf.length then
      .ok ((), h.modify dest fun _ => .bytes (writeBytes buf offset bs))
    else .error .outOfBounds
  | _, _ => .error .outOfBounds

/-- Modelled from the spec: a new definite string with no buffer yet. -/
def newDefiniteStr (k : StringKind) : Mem (Option Nat) := newItem (.str k (.definite none 0))
/-- Modelled from the spec: `cbor_new_definite_bytestring`. -/
def cborNewDefiniteBytestring : Mem (Option Nat) := newDefiniteStr .bytestring
/-- Modelled from the spec: `cbor_new_definite_string`. -/
def cborNewDefiniteString : Mem (Option Nat) := newDefiniteStr .string

/-- Modelled from the spec: a new indefinite string with no chunks. -/
def newIndefiniteStr (k : StringKind) : Mem (Option Nat) := newItem (.str k (.indefinite []))
/-- Modelled from the spec: `cbor_new_indefinite_bytestring`. -/
def cborNewIndefiniteBytestring : Mem (Option Nat) := newIndefiniteStr .bytestring
/-- Modelled from the spec: `cbor_new_indefinite_string`. -/
def cborNewIndefiniteString : Mem (Option Nat) := newIndefiniteStr .string

/-- Modelled from the spec: a definite string holding a copy of `length` bytes at
`handle`; the item is freed again when the buffer cannot be allocated
(`_CBOR_NOTNULL`, `_CBOR_DEPENDENT_NOTNULL`). -/
def buildStr (k : StringKind) (handle : Option Nat) (length : Nat) : Mem (Option Nat) := do
  match ← newDefiniteStr k with
  | none => return none
  | some item =>
    match ← cborMalloc length with
    | none =>
      cborFree item
      return none
    | some content =>
      memcpy content 0 handle length
      setHandle (some item) content length
      return some item

/-- Modelled from the spec: `cbor_build_bytestring`. -/
def cborBuildBytestring (handle : Option Nat) (length : Nat) : Mem (Option Nat) :=
  buildStr .bytestring handle length
/-- Modelled from the spec: `cbor_build_stringn`. -/
def cborBuildStringn (handle : Option Nat) (length : Nat) : Mem (Option Nat) :=
  buildStr .string handle length

/-- Modelled from the spec: `cbor_build_uint8`. -/
def cborBuildUint8 (value : UInt8) : Mem (Option Nat) := newItem (.uint (.int8 value))
/-- Modelled from the spec: `cbor_build_uint16`. -/
def cborBuildUint16 (value : UInt16) : Mem (Option Nat) := newItem (.uint (.int16 value))
/-- Modelled from the spec: `cbor_build_uint32`. -/
def cborBuildUint32 (value : UInt32) : Mem (Option Nat) := newItem (.uint (.int32 value))
/-- Modelled from the spec: `cbor_build_uint64`. -/
def cborBuildUint64 (value : UInt64) : Mem (Option Nat) := newItem (.uint (.int64 value))

/-- Modelled from the spec: `cbor_mark_negint` turns an integer item negative in place. -/
def cborMarkNegint (item : Option Nat) : Mem Unit := do
  match item with
  | none => throw .nullItem
  | some p =>
    match ← getItem p with
    | .uint n | .negint n => setItem p (.negint n)
    | _ => throw .badItem

/-- Modelled from the spec: `cbor_build_ctrl`. -/
def cborBuildCtrl (value : UInt8) : Mem (Option Nat) := newItem (.floatCtrl (.ctrl value))
/-- Modelled from the spec: `cbor_build_float2`. -/
def cborBuildFloat2 (bits : UInt32) : Mem (Option Nat) := newItem (.floatCtrl (.float2 bits))
/-- Modelled from the spec: `cbor_build_float4`. -/
def cborBuildFloat4 (bits : UInt32) : Mem (Option Nat) := newItem (.floatCtrl (.float4 bits))
/-- Modelled from the spec: `cbor_build_float8`. -/
def cborBuildFloat8 (bits : UInt64) : Mem (Option Nat) := newItem (.floatCtrl (.float8 bits))

/-- Modelled from the spec: `cbor_new_definite_array`. -/
def cborNewDefiniteArray (size : Nat) : Mem (Option Nat) := newItem (.array (.definite size) [])
/-- Modelled from the spec: `cbor_new_indefinite_array`. -/
def cborNewIndefiniteArray : Mem (Option Nat) := newItem (.array .indefinite [])
/-- Modelled from the spec: `cbor_new_definite_map`. -/
def cborNewDefiniteMap (size : Nat) : Mem (Option Nat) := newItem (.map (.definite size) [])
/-- Modelled from the spec: `cbor_new_indefinite_map`. -/
def cborNewIndefiniteMap : Mem (Option Nat) := newItem (.map .indefinite [])

/-- Modelled from the spec: `cbor_tag_item` returns the tagged item with one more count. -/
def cborTagItem (tag : Nat) : Mem Nat := do
  match ← getItem tag with
  | .tag _ (some item) => cborIncref item
  | .tag _ none => throw .nullItem
  | _ => throw .badItem

/-- Modelled from the spec: `cbor_tag_set_item` adopts a reference to the tagged item. -/
def cborTagSetItem (tag item : Nat) : Mem Unit := do
  match ← getItem tag with
  | .tag value _ =>
    let _ ← cborIncref item
    setItem tag (.tag value (some item))
  | _ => throw .badItem

/-- Modelled from the spec: `cbor_build_tag`. -/
def cborBuildTag (value : UInt64) (item : Nat) : Mem (Option Nat) := do
  match ← newItem (.tag value none) with
  | none => return none
  | some res =>
    cborTagSetItem res item
    return some res

end Libcbor.Ops
