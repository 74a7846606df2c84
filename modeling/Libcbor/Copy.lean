import Libcbor.Ops

/-! `cbor_copy` with `_cbor_copy_int` and `_cbor_copy_float_ctrl`. The byte string and
text string cases are the same code over `StringKind`; the chunk loop and the array
loop are one loop over the entries, given the push that adopts each copy. The recursion
is bounded by the number of addresses handed out, which no acyclic graph exceeds. -/
namespace Libcbor.Copy

open Ops

/-- `_cbor_copy_int`: rebuild the integer at its width, then mark it negative when asked.
`cbor_mark_negint` receives `res` whether or not the build succeeded. -/
def cborCopyInt (item : Nat) (negative : Bool) : Mem (Option Nat) := do
  let n ← match ← getItem item with
    | .uint n | .negint n => pure n
    | _ => throw .badItem
  let res ← match n with
    | .int8 v => cborBuildUint8 v
    | .int16 v => cborBuildUint16 v
    | .int32 v => cborBuildUint32 v
    | .int64 v => cborBuildUint64 v
  if negative then cborMarkNegint res
  return res

/-- `_cbor_copy_float_ctrl`. -/
def cborCopyFloatCtrl (item : Nat) : Mem (Option Nat) := do
  match ← getItem item with
  | .floatCtrl (.ctrl v) => cborBuildCtrl v
  | .floatCtrl (.float2 v) => cborBuildFloat2 v
  | .floatCtrl (.float4 v) => cborBuildFloat4 v
  | .floatCtrl (.float8 v) => cborBuildFloat8 v
  | _ => throw .badItem

/-- `cbor_copy`'s answer to a refused push: release the entry's copy, then the container. -/
def releaseEntry (res entryCopy : Nat) : Mem (Option Nat) := do
  cborDecref entryCopy
  cborDecref res
  return none

/-- The chunk and array loops of `cbor_copy` and the array loop of `cbor_copy_definite`:
copy each entry, push the copy into `res` and drop the local reference; when a copy fails,
release `res`. What follows a refused push is `refused`, given the entry's copy. -/
def copyEach (copy : Nat → Mem (Option Nat)) (push : Nat → Nat → Mem Bool)
    (refused : Nat → Mem (Option Nat)) (res : Nat) : List Nat → Mem (Option Nat)
  | [] => return some res
  | c :: cs => do
    match ← copy c with
    | none =>
      cborDecref res
      return none
    | some entryCopy =>
      if ← push res entryCopy then
        cborDecref entryCopy
        copyEach copy push refused res cs
      else refused entryCopy

/-- `cbor_copy` applied to a pointer that may be `NULL`: `cbor_typeof` dereferences it. -/
def copyNonNull (copy : Nat → Mem (Option Nat)) : Option Nat → Mem (Option Nat)
  | some p => copy p
  | none => throw .nullItem

/-- `cbor_copy`'s answer to a refused `cbor_map_add`. -/
def releasePair (res keyCopy valueCopy : Nat) : Mem (Option Nat) := do
  cborDecref res
  cborDecref keyCopy
  cborDecref valueCopy
  return none

/-- The map loops of `cbor_copy` and `cbor_copy_definite`. -/
def copyPairs (copy : Nat → Mem (Option Nat)) (refused : Nat → Nat → Mem (Option Nat))
    (res : Nat) : List (Nat × Option Nat) → Mem (Option Nat)
  | [] => return some res
  | kv :: ps => do
    match ← copy kv.1 with
    | none =>
      cborDecref res
      return none
    | some keyCopy =>
      match ← copyNonNull copy kv.2 with
      | none =>
        cborDecref res
        cborDecref keyCopy
        return none
      | some valueCopy =>
        if ← cborMapAdd res keyCopy valueCopy then
          cborDecref keyCopy
          cborDecref valueCopy
          copyPairs copy refused res ps
        else refused keyCopy valueCopy

/-- The tag case of `cbor_copy` and `cbor_copy_definite`: copy the tagged item, handed on by
`cbor_move` without the count `cbor_tag_item` added, build the tag over the copy and drop
the local reference. -/
def copyTag (copy : Nat → Mem (Option Nat)) (item : Nat) (value : UInt64) :
    Mem (Option Nat) := do
  match ← copy (← cborMove (← cborTagItem item)) with
  | none => return none
  | some itemCopy =>
    let tag ← cborBuildTag value itemCopy
    cborDecref itemCopy
    return tag

/-- `cbor_copy`, unfolding at most `fuel` levels. `cbor_array_get` is the `cbor_incref`
of an entry, and `cbor_move` hands the entry on without its extra count. -/
def cborCopyAux : Nat → Nat → Mem (Option Nat)
  | 0, _ => throw .outOfFuel
  | fuel + 1, item => do
    match ← getItem item with
    | .uint _ => cborCopyInt item false
    | .negint _ => cborCopyInt item true
    | .str k (.definite handle length) => buildStr k handle length
    | .str k (.indefinite chunks) =>
      match ← newIndefiniteStr k with
      | none => return none
      | some res => copyEach (cborCopyAux fuel) addChunk (releaseEntry res) res chunks
    | .array dst items =>
      let res ← match dst with
        | .definite _ => cborNewDefiniteArray items.length
        | .indefinite => cborNewIndefiniteArray
      match res with
      | none => return none
      | some res =>
        copyEach (fun c => do cborCopyAux fuel (← cborMove (← cborIncref c))) cborArrayPush
          (releaseEntry res) res items
    | .map dst pairs =>
      let res ← match dst with
        | .definite _ => cborNewDefiniteMap pairs.length
        | .indefinite => cborNewIndefiniteMap
      match res with
      | none => return none
      | some res => copyPairs (cborCopyAux fuel) (releasePair res) res pairs
    | .tag value _ => copyTag (cborCopyAux fuel) item value
    | .floatCtrl _ => cborCopyFloatCtrl item

/-- `cbor_copy`. -/
def cborCopy (item : Nat) : Mem (Option Nat) := fun h => cborCopyAux h.next item h

end Libcbor.Copy
