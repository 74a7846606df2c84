import Libcbor.Copy
import Mathlib.Algebra.Group.Nat.Basic

/-! `cbor_copy_definite`. Integers, floats and definite strings go to `cbor_copy`; a
chunked string is collapsed into one definite string; every array and map is rebuilt
definite, with its entries copied definite as well. The collapse adds chunk lengths in
`size_t`, a word of `w` bits, so both of its sums are taken modulo `2 ^ w`.
Beside the code, `Item.canon` states what the copy is meant to denote and `Item.fits`
when the lengths of every chunked string add up below `2 ^ w`. -/
namespace Libcbor.CopyDefinite

open Ops Copy

/-- Modelled from the spec: `cbor_bytestring_length` with `cbor_bytestring_handle` (and the
`cbor_string_` pair) of a chunk, which is a definite string of its parent's type; the
accessors assert the type, and any other chunk is taken as a failed assertion. -/
def chunkData (k : StringKind) (chunk : Nat) : Mem (Option Nat × Nat) := do
  match ← getItem chunk with
  | .str k' (.definite handle length) => if k' = k then pure (handle, length) else throw .assertion
  | _ => throw .assertion

/-- The first chunk loop: `total_length += length` in `size_t`. -/
def totalLength (w : Nat) (k : StringKind) (total : Nat) : List Nat → Mem Nat
  | [] => pure total
  | chunk :: chunks => do
    let (_, length) ← chunkData k chunk
    totalLength w k ((total + length) % 2 ^ w) chunks

/-- The second chunk loop: `memcpy(combined_data + offset, handle, length)`, then
`offset += length` in `size_t`. -/
def copyChunks (w : Nat) (k : StringKind) (combined : Nat) (offset : Nat) : List Nat → Mem Unit
  | [] => pure ()
  | chunk :: chunks => do
    let (handle, length) ← chunkData k chunk
    memcpy combined offset handle length
    copyChunks w k combined ((offset + length) % 2 ^ w) chunks

/-- The chunked byte string and text string branches: one buffer of `total_length` bytes
holding the chunks in order, installed in a new definite string. The new string is not
checked for `NULL` before its handle is set. -/
def collapseChunks (w : Nat) (k : StringKind) (chunks : List Nat) : Mem (Option Nat) := do
  let total ← totalLength w k 0 chunks
  match ← cborMalloc total with
  | none => return none
  | some combined =>
    copyChunks w k combined 0 chunks
    let res ← newDefiniteStr k
    setHandle res combined total
    return res

/-- `cbor_copy_definite` with `size_t` of `w` bits, unfolding at most `fuel` levels. The
entries of a container are copied without the `cbor_incref`/`cbor_move` pair, and a push
into the preallocated container is asserted (`CBOR_ASSERT`) to succeed. -/
def cborCopyDefiniteAux (w : Nat) : Nat → Nat → Mem (Option Nat)
  | 0, _ => throw .outOfFuel
  | fuel + 1, item => do
    match ← getItem item with
    | .uint _ | .negint _ | .str _ (.definite _ _) | .floatCtrl _ => cborCopy item
    | .str k (.indefinite chunks) => collapseChunks w k chunks
    | .array _ items =>
      match ← cborNewDefiniteArray items.length with
      | none => return none
      | some res =>
        copyEach (cborCopyDefiniteAux w fuel) cborArrayPush (fun _ => throw .assertion) res items
    | .map _ pairs =>
      match ← cborNewDefiniteMap pairs.length with
      | none => return none
      | some res =>
        copyPairs (cborCopyDefiniteAux w fuel) (fun _ _ => throw .assertion) res pairs
    | .tag value _ => copyTag (cborCopyDefiniteAux w fuel) item value

/-- `cbor_copy_definite`. -/
def cborCopyDefinite (w : Nat) (item : Nat) : Mem (Option Nat) := fun h =>
  cborCopyDefiniteAux w h.next item h

end Libcbor.CopyDefinite

namespace Libcbor

mutual
/-- What `cbor_copy_definite` is meant to return, in the spec's words: chunked strings
become one definite string of the chunks' bytes in order, arrays and maps become definite,
and everything else is kept. -/
def Item.canon : Item → Item
  | .chunked k chunks => .bytes k chunks.flatten
  | .array _ items => .array true items.canon
  | .map _ pairs => .map true pairs.canon
  | .tag v t => .tag v t.canon
  | t => t
def Items.canon : Items → Items
  | .nil => .nil
  | .cons t ts => .cons t.canon ts.canon
def Pairs.canon : Pairs → Pairs
  | .nil => .nil
  | .cons k v ps => .cons k.canon v.canon ps.canon
end

mutual
/-- The chunk lengths of every chunked string add up below `2 ^ w`. -/
def Item.fits (w : Nat) : Item → Bool
  | .chunked _ chunks => chunks.flatten.length < 2 ^ w
  | .array _ items => items.fits w
  | .map _ pairs => pairs.fits w
  | .tag _ t => t.fits w
  | _ => true
def Items.fits (w : Nat) : Items → Bool
  | .nil => true
  | .cons t ts => t.fits w && ts.fits w
def Pairs.fits (w : Nat) : Pairs → Bool
  | .nil => true
  | .cons k v ps => k.fits w && v.fits w && ps.fits w
end

mutual
/-- No string below is chunked and no array or map below is indefinite. -/
def Item.allDefinite : Item → Bool
  | .chunked _ _ => false
  | .array b items => b && items.allDefinite
  | .map b pairs => b && pairs.allDefinite
  | .tag _ t => t.allDefinite
  | _ => true
def Items.allDefinite : Items → Bool
  | .nil => true
  | .cons t ts => t.allDefinite && ts.allDefinite
def Pairs.allDefinite : Pairs → Bool
  | .nil => true
  | .cons k v ps => k.allDefinite && v.allDefinite && ps.allDefinite
end

mutual
theorem Item.allDefinite_canon : ∀ t : Item, t.canon.allDefinite = true
  | .uint _ | .negint _ | .bytes _ _ | .chunked _ _ | .floatCtrl _ => rfl
  | .array _ items => by
    simp only [Item.canon, Item.allDefinite, Items.allDefinite_canon items, Bool.and_self]
  | .map _ pairs => by
    simp only [Item.canon, Item.allDefinite, Pairs.allDefinite_canon pairs, Bool.and_self]
  | .tag _ t => by simp only [Item.canon, Item.allDefinite, Item.allDefinite_canon t]
theorem Items.allDefinite_canon : ∀ ts : Items, ts.canon.allDefinite = true
  | .nil => rfl
  | .cons t ts => by
    simp only [Items.canon, Items.allDefinite, Item.allDefinite_canon t,
      Items.allDefinite_canon ts, Bool.and_self]
theorem Pairs.allDefinite_canon : ∀ ps : Pairs, ps.canon.allDefinite = true
  | .nil => rfl
  | .cons k v ps => by
    simp only [Pairs.canon, Pairs.allDefinite, Item.allDefinite_canon k, Item.allDefinite_canon v,
      Pairs.allDefinite_canon ps, Bool.and_self]
end

mutual
theorem Item.canon_of_allDefinite : ∀ t : Item, t.allDefinite = true → t.canon = t
  | .uint _, _ | .negint _, _ | .bytes _ _, _ | .floatCtrl _, _ => rfl
  | .chunked _ _, h => nomatch h
  | .array b items, h => by
    simp only [Item.allDefinite, Bool.and_eq_true] at h
    obtain ⟨rfl, h⟩ := h
    rw [Item.canon, Items.canon_of_allDefinite items h]
  | .map b pairs, h => by
    simp only [Item.allDefinite, Bool.and_eq_true] at h
    obtain ⟨rfl, h⟩ := h
    rw [Item.canon, Pairs.canon_of_allDefinite pairs h]
  | .tag _ t, h => by rw [Item.canon, Item.canon_of_allDefinite t h]
theorem Items.canon_of_allDefinite : ∀ ts : Items, ts.allDefinite = true → ts.canon = ts
  | .nil, _ => rfl
  | .cons t ts, h => by
    simp only [Items.allDefinite, Bool.and_eq_true] at h
    rw [Items.canon, Item.canon_of_allDefinite t h.1, Items.canon_of_allDefinite ts h.2]
theorem Pairs.canon_of_allDefinite : ∀ ps : Pairs, ps.allDefinite = true → ps.canon = ps
  | .nil, _ => rfl
  | .cons k v ps, h => by
    simp only [Pairs.allDefinite, Bool.and_eq_true] at h
    rw [Pairs.canon, Item.canon_of_allDefinite k h.1.1, Item.canon_of_allDefinite v h.1.2,
      Pairs.canon_of_allDefinite ps h.2]
end

mutual
theorem Item.fits_of_allDefinite (w : Nat) : ∀ t : Item, t.allDefinite = true → t.fits w = true
  | .uint _, _ | .negint _, _ | .bytes _ _, _ | .floatCtrl _, _ => rfl
  | .chunked _ _, h => nomatch h
  | .array _ items, h => by
    simp only [Item.allDefinite, Bool.and_eq_true] at h
    rw [Item.fits, Items.fits_of_allDefinite w items h.2]
  | .map _ pairs, h => by
    simp only [Item.allDefinite, Bool.and_eq_true] at h
    rw [Item.fits, Pairs.fits_of_allDefinite w pairs h.2]
  | .tag _ t, h => by rw [Item.fits, Item.fits_of_allDefinite w t h]
theorem Items.fits_of_allDefinite (w : Nat) :
    ∀ ts : Items, ts.allDefinite = true → ts.fits w = true
  | .nil, _ => rfl
  | .cons t ts, h => by
    simp only [Items.allDefinite, Bool.and_eq_true] at h
    rw [Items.fits, Item.fits_of_allDefinite w t h.1, Items.fits_of_allDefinite w ts h.2,
      Bool.and_self]
theorem Pairs.fits_of_allDefinite (w : Nat) :
    ∀ ps : Pairs, ps.allDefinite = true → ps.fits w = true
  | .nil, _ => rfl
  | .cons k v ps, h => by
    simp only [Pairs.allDefinite, Bool.and_eq_true] at h
    rw [Pairs.fits, Item.fits_of_allDefinite w k h.1.1, Item.fits_of_allDefinite w v h.1.2,
      Pairs.fits_of_allDefinite w ps h.2, Bool.and_self, Bool.and_self]
end

end Libcbor
