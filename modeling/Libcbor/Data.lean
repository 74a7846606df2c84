import Mathlib.Logic.Function.Basic
import Mathlib.Data.List.Nodup

/-! The item graph of libcbor as a heap of blocks. Items and the byte buffers they
own share one address space; reference counts are kept in a map of their own beside
the block contents, so that counting never changes what an item denotes. -/
namespace Libcbor

/-- `cbor_int_width` together with the value stored at that width. -/
inductive CborInt
  | int8 (value : UInt8)
  | int16 (value : UInt16)
  | int32 (value : UInt32)
  | int64 (value : UInt64)
  deriving DecidableEq, Repr

/-- `cbor_float_width` with its payload: a simple value for `CBOR_FLOAT_0`, otherwise
the bit pattern of the stored `float` or `double`. -/
inductive CborFloatCtrl
  | ctrl (value : UInt8)
  | float2 (bits : UInt32)
  | float4 (bits : UInt32)
  | float8 (bits : UInt64)
  deriving DecidableEq, Repr

/-- Byte strings and text strings share their representation and every line of copy code. -/
inductive StringKind
  | bytestring
  | string
  deriving DecidableEq, Repr

/-- `_cbor_dst_metadata`; a definite container remembers its preallocated size. -/
inductive Dst
  | definite (allocated : Nat)
  | indefinite
  deriving DecidableEq, Repr

def Dst.isDefinite : Dst → Bool
  | .definite _ => true
  | .indefinite => false

/-- A string's data: a buffer (`NULL` until a handle is set) and its length, or the chunks. -/
inductive StringData
  | definite (handle : Option Nat) (length : Nat)
  | indefinite (chunks : List Nat)
  deriving DecidableEq, Repr

/-- The type-specific part of `cbor_item_t`. Pointers are heap addresses; `NULL` is
`none` wherever the code can hold it: map values and the tagged item are `NULL` until
a builder supplies them. -/
inductive ItemData
  | uint (value : CborInt)
  | negint (value : CborInt)
  | str (kind : StringKind) (data : StringData)
  | array (dst : Dst) (items : List Nat)
  | map (dst : Dst) (pairs : List (Nat × Option Nat))
  | tag (value : UInt64) (item : Option Nat)
  | floatCtrl (value : CborFloatCtrl)
  deriving DecidableEq, Repr

/-- A heap block: an item, or a byte buffer obtained from `_cbor_malloc`. -/
inductive Block
  | item (data : ItemData)
  | bytes (data : List UInt8)
  deriving DecidableEq, Repr

mutual
/-- What an item denotes: its tree unfolding, sharing forgotten. -/
inductive Item
  | uint (value : CborInt)
  | negint (value : CborInt)
  | bytes (kind : StringKind) (data : List UInt8)
  | chunked (kind : StringKind) (chunks : List (List UInt8))
  | array (definite : Bool) (items : Items)
  | map (definite : Bool) (pairs : Pairs)
  | tag (value : UInt64) (item : Item)
  | floatCtrl (value : CborFloatCtrl)
  deriving DecidableEq, Repr
inductive Items
  | nil
  | cons (head : Item) (tail : Items)
  deriving DecidableEq, Repr
inductive Pairs
  | nil
  | cons (key value : Item) (tail : Pairs)
  deriving DecidableEq, Repr
end

def Items.snoc : Items → Item → Items
  | .nil, t => .cons t .nil
  | .cons s ss, t => .cons s (ss.snoc t)

def Pairs.snoc : Pairs → Item → Item → Pairs
  | .nil, k, v => .cons k v .nil
  | .cons k' v' ps, k, v => .cons k' v' (ps.snoc k v)

/-- Process memory as the item operations see it. `allocFails n` says whether the
`n`-th call to the installed allocator returns `NULL`; `calls` counts the calls so far.
Addresses from `next` on have never been handed out, and a dead block counts nothing. -/
@[ext] structure Heap where
  mem : Nat → Option Block
  refcount : Nat → Nat
  next : Nat
  calls : Nat
  allocFails : Nat → Bool
  fresh : ∀ a, next ≤ a → mem a = none
  dead : ∀ a, mem a = none → refcount a = 0

/-- What can go wrong inside an item operation; none of it returns to the caller. -/
inductive Fault
  /-- a `NULL` item handed to an item operation -/
  | nullItem
  /-- an item operation on a dead block or on an item of another type -/
  | badItem
  /-- a `memcpy` past the end of its buffer -/
  | outOfBounds
  /-- a `CBOR_ASSERT` that does not hold -/
  | assertion
  /-- the recursion bound ran out, which only a cyclic graph causes -/
  | outOfFuel
  deriving DecidableEq, Repr

abbrev Mem := StateT Heap (Except Fault)

namespace Heap

/-- No allocator call from now on returns `NULL`. -/
def NoFail (h : Heap) : Prop := ∀ n, h.calls ≤ n → h.allocFails n = false

/-- An allocator call that allocates nothing (a failure, or a `realloc`): only the
call counter moves. -/
def tick (h : Heap) : Heap := { h with calls := h.calls + 1 }

/-- A successful allocator call placing block `b`, with count `rc`, at `h.next`. -/
def alloc (h : Heap) (b : Block) (rc : Nat) : Heap where
  mem := Function.update h.mem h.next (some b)
  refcount := Function.update h.refcount h.next rc
  next := h.next + 1
  calls := h.calls + 1
  allocFails := h.allocFails
  fresh a ha := by
    simp only [Function.update_noteq (show a ≠ h.next by omega)]
    exact h.fresh a (by omega)
  dead a ha := by
    by_cases e : a = h.next
    · subst e; simp at ha
    · simp only [Function.update_noteq e] at ha ⊢; exact h.dead a ha

/-- `_cbor_free`: the block goes back to the allocator. -/
def free (h : Heap) (p : Nat) : Heap where
  mem := Function.update h.mem p none
  refcount := Function.update h.refcount p 0
  next := h.next
  calls := h.calls
  allocFails := h.allocFails
  fresh a ha := by
    by_cases e : a = p
    · subst e; simp
    · simp only [Function.update_noteq e]; exact h.fresh a ha
  dead a ha := by
    by_cases e : a = p
    · subst e; simp
    · simp only [Function.update_noteq e] at ha ⊢; exact h.dead a ha

/-- Rewrite the block at `p`, if there is one. -/
def modify (h : Heap) (p : Nat) (f : Block → Block) : Heap where
  mem := Function.update h.mem p ((h.mem p).map f)
  refcount := h.refcount
  next := h.next
  calls := h.calls
  allocFails := h.allocFails
  fresh a ha := by
    by_cases e : a = p
    · subst e; simp [h.fresh a ha]
    · simp only [Function.update_noteq e]; exact h.fresh a ha
  dead a ha := by
    by_cases e : a = p
    · subst e; simp at ha; exact h.dead a ha
    · simp only [Function.update_noteq e] at ha; exact h.dead a ha

/-- Set the reference count of a live block. -/
def setRefcount (h : Heap) (p : Nat) (n : Nat) : Heap :=
  if hp : (h.mem p).isSome then
    { h with
      refcount := Function.update h.refcount p n
      dead := fun a ha => by
        have e : a ≠ p := by rintro rfl; simp [ha] at hp
        simp only [Function.update_noteq e]
        exact h.dead a ha }
  else h

variable (h : Heap) (p q : Nat) (b : Block) (rc n : Nat) (f : Block → Block)

theorem lt_next_of_mem {p : Nat} {b : Block} (hp : h.mem p = some b) : p < h.next := by
  by_contra hn
  simp [h.fresh p (by omega)] at hp

@[simp] theorem tick_mem : h.tick.mem = h.mem := rfl
@[simp] theorem tick_refcount : h.tick.refcount = h.refcount := rfl
@[simp] theorem tick_next : h.tick.next = h.next := rfl
@[simp] theorem tick_calls : h.tick.calls = h.calls + 1 := rfl
@[simp] theorem tick_allocFails : h.tick.allocFails = h.allocFails := rfl

@[simp] theorem alloc_mem : (h.alloc b rc).mem = Function.update h.mem h.next (some b) := rfl
@[simp] theorem alloc_refcount :
    (h.alloc b rc).refcount = Function.update h.refcount h.next rc := rfl
@[simp] theorem alloc_next : (h.alloc b rc).next = h.next + 1 := rfl
@[simp] theorem alloc_calls : (h.alloc b rc).calls = h.calls + 1 := rfl
@[simp] theorem alloc_allocFails : (h.alloc b rc).allocFails = h.allocFails := rfl

@[simp] theorem free_mem : (h.free p).mem = Function.update h.mem p none := rfl
@[simp] theorem free_refcount : (h.free p).refcount = Function.update h.refcount p 0 := rfl
@[simp] theorem free_next : (h.free p).next = h.next := rfl
@[simp] theorem free_calls : (h.free p).calls = h.calls := rfl
@[simp] theorem free_allocFails : (h.free p).allocFails = h.allocFails := rfl

@[simp] theorem modify_mem : (h.modify p f).mem = Function.update h.mem p ((h.mem p).map f) := rfl
@[simp] theorem modify_refcount : (h.modify p f).refcount = h.refcount := rfl
@[simp] theorem modify_next : (h.modify p f).next = h.next := rfl
@[simp] theorem modify_calls : (h.modify p f).calls = h.calls := rfl
@[simp] theorem modify_allocFails : (h.modify p f).allocFails = h.allocFails := rfl

theorem setRefcount_refcount {p : Nat} {b : Block} (hp : h.mem p = some b) (n : Nat) :
    (h.setRefcount p n).refcount = Function.update h.refcount p n := by
  simp [setRefcount, hp]
@[simp] theorem setRefcount_mem : (h.setRefcount p n).mem = h.mem := by
  unfold setRefcount; split <;> rfl
@[simp] theorem setRefcount_next : (h.setRefcount p n).next = h.next := by
  unfold setRefcount; split <;> rfl
@[simp] theorem setRefcount_calls : (h.setRefcount p n).calls = h.calls := by
  unfold setRefcount; split <;> rfl
@[simp] theorem setRefcount_allocFails : (h.setRefcount p n).allocFails = h.allocFails := by
  unfold setRefcount; split <;> rfl

theorem setRefcount_refcount_apply (a : Nat) :
    (h.setRefcount p n).refcount a = if a = p ∧ (h.mem p).isSome then n else h.refcount a := by
  unfold setRefcount
  by_cases hp : (h.mem p).isSome <;> by_cases e : a = p <;> simp [hp, e]

theorem setRefcount_setRefcount (m : Nat) :
    (h.setRefcount p m).setRefcount p n = h.setRefcount p n := by
  ext a <;> simp [setRefcount_refcount_apply]; split_ifs <;> simp_all

theorem setRefcount_eq_self {h : Heap} {p n : Nat} (hrc : h.refcount p = n) :
    h.setRefcount p n = h := by
  ext a <;> simp [setRefcount_refcount_apply]
  rintro rfl -
  exact hrc.symm

theorem setRefcount_comm {h : Heap} {p q : Nat} (m n : Nat) (hne : p ≠ q) :
    (h.setRefcount p m).setRefcount q n = (h.setRefcount q n).setRefcount p m := by
  ext a <;> simp [setRefcount_refcount_apply]; split_ifs <;> simp_all

theorem modify_setRefcount :
    (h.setRefcount q n).modify p f = (h.modify p f).setRefcount q n := by
  ext a <;> simp [setRefcount_refcount_apply]
  by_cases e : q = p <;> simp [e, Function.update_apply]

@[simp] theorem modify_tick : h.tick.modify p f = (h.modify p f).tick := rfl

@[simp] theorem setRefcount_tick : h.tick.setRefcount p n = (h.setRefcount p n).tick := by
  ext a <;> simp [setRefcount_refcount_apply]

/-- A heap holding `blocks` at the addresses `0, 1, …`, each item counted once, whose
allocator fails at the calls `fails` names. -/
def ofBlocks (blocks : List Block) (fails : Nat → Bool) : Heap where
  mem a := blocks[a]?
  refcount a := match blocks[a]? with
    | some (.item _) => 1
    | _ => 0
  next := blocks.length
  calls := 0
  allocFails := fails
  fresh _ ha := List.getElem?_eq_none ha
  dead _ ha := by simp [ha]

end Heap

end Libcbor
