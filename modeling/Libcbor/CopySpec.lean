import Libcbor.Copy
import Libcbor.Fresh

/-! What `cbor_copy` does to the heap. A copy that returns an item has added one fresh
tree, owned by the caller alone, that unfolds like the source; one that returns `NULL`
has left contents and counts as it found them, which happens only when the allocator
failed on one of its calls. The one way out of this is a `NULL` build of a negative
integer, which `_cbor_copy_int` hands to `cbor_mark_negint`. -/
namespace Libcbor

/-- No item below `p` is a negative integer. -/
def Heap.NoNegint (h : Heap) (f p : Nat) : Prop :=
  ∀ a ∈ h.footprint f p, ∀ n, h.item? a ≠ some (.negint n)

theorem Heap.bytesAt_length {h : Heap} {handle : Option Nat} {n : Nat} {bs : List UInt8}
    (hb : h.bytesAt handle n = some bs) : bs.length = n := by
  unfold bytesAt at hb
  split_ifs at hb with hn
  · cases hb; simp [hn]
  · rcases handle with _ | b
    · cases hb
    · rcases hm : h.mem b with _ | ⟨_ | buf⟩ <;> simp only [hm] at hb <;> try cases hb
      split_ifs at hb with hle
      cases hb
      simp [hle]

end Libcbor

namespace Libcbor.CopySpec

open Heap Ops Unfold Own Copy

/-- What a copy of a source unfolding to `t`, started on `h`, may end in: a fresh tree
unfolding to `t`, `NULL` with nothing left behind after a failed allocation, or a fault
`e` that `E` allows. -/
def CopyOutcome (E : Fault → Prop) (f : Nat) (h : Heap) (t : Item) :
    Except Fault (Option Nat × Heap) → Prop
  | .ok (some q, h') => h.Adds f h' [q] ∧ h'.unfold f q = some t
  | .ok (none, h') => h.Alike h' ∧ ¬ h.NoFail
  | .error e => E e

variable {E : Fault → Prop} {h : Heap} {f p : Nat} {t : Item} {d : ItemData} {b : Block} {rc : Nat}

theorem CopyOutcome.mono {E' : Fault → Prop} {r : Except Fault (Option Nat × Heap)}
    (hE : ∀ e, E e → E' e) (hr : CopyOutcome E f h t r) : CopyOutcome E' f h t r := by
  rcases r with e | ⟨_ | q, h'⟩
  · exact hE e hr
  · exact hr
  · exact hr

theorem allocBlock_fails (hx : h.allocFails h.calls = true) :
    allocBlock b rc h = .ok (none, h.tick) := by
  simp [allocBlock, hx]

theorem allocBlock_ok (hx : h.allocFails h.calls = false) :
    allocBlock b rc h = .ok (some h.next, h.alloc b rc) := by
  simp [allocBlock, hx]

theorem CopyOutcome.of_fails (hx : h.allocFails h.calls = true) :
    CopyOutcome E f h t (.ok (none, h.tick)) :=
  ⟨alike_tick h, not_noFail_of_fails hx⟩

theorem modify_alloc_next {b' : Block} :
    (h.alloc b rc).modify h.next (fun _ => b') = h.alloc b' rc := by
  ext a <;> simp [Function.update_apply]; split_ifs <;> simp_all

/-- A constructor of an item with no children and no buffer copies a leaf. -/
theorem newItem_outcome (hch : d.children = []) (hbuf : d.buffer = none)
    (hn : ∀ h : Heap, h.node d [] = some t) : CopyOutcome E (f + 1) h t (newItem d h) := by
  cases hx : h.allocFails h.calls
  · rw [newItem, allocBlock_ok hx]
    exact ⟨Adds.alloc_leaf hch hbuf, by simp [unfold_succ, item?_alloc_next, hch, unfoldAll, hn]⟩
  · rw [newItem, allocBlock_fails hx]
    exact .of_fails hx

theorem cborCopyInt_eq {n : CborInt} (hd : h.item? p = some d)
    (hn : d = .uint n ∨ d = .negint n) (negative : Bool) :
    cborCopyInt p negative h =
      (newItem (.uint n) >>= fun res =>
        (if negative then cborMarkNegint res else pure ()) >>= fun _ => pure res) h := by
  unfold cborCopyInt
  rw [Mem.bind_ok (getItem_eq hd)]
  rcases hn with rfl | rfl <;> cases n <;> cases negative <;> rfl

theorem cborCopyInt_uint {n : CborInt} (hd : h.item? p = some (.uint n)) :
    CopyOutcome E (f + 1) h (.uint n) (cborCopyInt p false h) := by
  rw [cborCopyInt_eq hd (.inl rfl)]
  simp only [Bool.false_eq_true, if_false, pure_bind, bind_pure]
  exact newItem_outcome rfl rfl fun _ => rfl

/-- `_cbor_copy_int` of a negative integer, when the build of the magnitude succeeds. -/
theorem cborCopyInt_negint_ok {n : CborInt} (hd : h.item? p = some (.negint n))
    (hx : h.allocFails h.calls = false) :
    CopyOutcome E (f + 1) h (.negint n) (cborCopyInt p true h) := by
  have hm : cborMarkNegint (some h.next) (h.alloc (.item (.uint n)) 1) =
      .ok ((), h.alloc (.item (.negint n)) 1) := by
    simp [cborMarkNegint, Mem.bind_apply, getItem_eq item?_alloc_next, setItem_apply,
      modify_alloc_next]
  rw [cborCopyInt_eq hd (.inr rfl), Mem.bind_apply, newItem, allocBlock_ok hx]
  simp only [if_true, Mem.bind_apply, hm, Mem.pure_apply]
  exact ⟨Adds.alloc_leaf rfl rfl, by simp [unfold_succ, item?_alloc_next, unfoldAll, node, treeNode]⟩

/-- `_cbor_copy_int` of a negative integer whose build fails hands `NULL` on. -/
theorem cborCopyInt_negint_fails {n : CborInt} (hd : h.item? p = some (.negint n))
    (hx : h.allocFails h.calls = true) : cborCopyInt p true h = .error .nullItem := by
  rw [cborCopyInt_eq hd (.inr rfl), Mem.bind_apply, newItem, allocBlock_fails hx]
  rfl

/-- `_cbor_copy_int` of a negative integer faults exactly when the allocator fails. -/
theorem cborCopyInt_negint {n : CborInt} (hd : h.item? p = some (.negint n)) :
    CopyOutcome (fun e => e = .nullItem ∧ ¬ h.NoFail) (f + 1) h (.negint n)
      (cborCopyInt p true h) := by
  cases hx : h.allocFails h.calls
  · exact cborCopyInt_negint_ok hd hx
  · rw [cborCopyInt_negint_fails hd hx]
    exact ⟨rfl, not_noFail_of_fails hx⟩

theorem cborCopyFloatCtrl_outcome {v : CborFloatCtrl} (hd : h.item? p = some (.floatCtrl v)) :
    CopyOutcome E (f + 1) h (.floatCtrl v) (cborCopyFloatCtrl p h) := by
  have e : cborCopyFloatCtrl p h = newItem (.floatCtrl v) h := by
    unfold cborCopyFloatCtrl
    rw [Mem.bind_ok (getItem_eq hd)]
    cases v <;> rfl
  rw [e]
  exact newItem_outcome rfl rfl fun _ => rfl

theorem memcpy_ok {dest offset length : Nat} {src : Option Nat} {buf bs : List UInt8}
    (hb : h.bytesAt src length = some bs) (hd : h.mem dest = some (.bytes buf))
    (hle : offset + length ≤ buf.length) :
    memcpy dest offset src length h =
      .ok ((), h.modify dest fun _ => .bytes (writeBytes buf offset bs)) := by
  simp [memcpy, hb, hd, hle]

/-- `cbor_build_bytestring` and `cbor_build_stringn` copy a definite string: the item and
its buffer, or nothing. -/
theorem buildStr_outcome {k : StringKind} {handle : Option Nat} {length : Nat}
    {bs : List UInt8} (hbs : h.bytesAt handle length = some bs) :
    CopyOutcome E (f + 1) h (.bytes k bs) (buildStr k handle length h) := by
  have hne : h.next ≠ h.next + 1 := by omega
  cases hx : h.allocFails h.calls
  · cases hy : (h.alloc (.item (.str k (.definite none 0))) 1).allocFails (h.calls + 1)
    · have hlen := Heap.bytesAt_length hbs
      have hcpy : memcpy (h.next + 1) 0 handle length
          ((h.alloc (.item (.str k (.definite none 0))) 1).alloc
            (.bytes (List.replicate length 0)) 0) =
          .ok ((), ((h.alloc (.item (.str k (.definite none 0))) 1).alloc
            (.bytes (List.replicate length 0)) 0).modify (h.next + 1) fun _ => .bytes bs) := by
        rw [memcpy_ok (((grows_alloc h _ _).trans (grows_alloc _ _ _)).bytesAt hbs)
          (show _ = some (.bytes (List.replicate length 0)) by simp) (by simp)]
        simp [writeBytes, hlen]
      have hset : setHandle (some h.next) (h.next + 1) length
          (((h.alloc (.item (.str k (.definite none 0))) 1).alloc
            (.bytes (List.replicate length 0)) 0).modify (h.next + 1) fun _ => .bytes bs) =
          .ok ((), (h.alloc (.item (.str k (.definite (some (h.next + 1)) length))) 1).alloc
            (.bytes bs) 0) := by
        have hi : (((h.alloc (.item (.str k (.definite none 0))) 1).alloc
            (.bytes (List.replicate length 0)) 0).modify (h.next + 1) fun _ => .bytes bs).item?
            h.next = some (.str k (.definite none 0)) := by
          simp [item?, Function.update_noteq hne]
        simp only [setHandle, Mem.bind_apply, getItem_eq hi, setItem_apply]
        congr 2
        ext a <;> simp [Function.update_apply]
        split_ifs <;> simp_all
      simp only [buildStr, newDefiniteStr, newItem, cborMalloc, Mem.bind_apply, allocBlock_ok hx]
      rw [allocBlock_ok hy]
      simp only [alloc_next, Mem.bind_apply, hcpy, hset, Mem.pure_apply]
      refine ⟨Adds.alloc_buffer rfl rfl, ?_⟩
      simp [unfold_succ, item?, Function.update_noteq hne, unfoldAll, node, bytesAt,
        ItemData.children]
      subst hlen
      split_ifs with h0 <;> simp_all [List.length_eq_zero]
    · simp only [buildStr, newDefiniteStr, newItem, cborMalloc, Mem.bind_apply, allocBlock_ok hx]
      rw [allocBlock_fails hy]
      simp only [cborFree_apply, Mem.pure_apply]
      exact ⟨alike_alloc_tick_free h _ _,
        not_noFail_of_grows (grows_alloc h _ _) (not_noFail_of_fails hy)⟩
  · simp only [buildStr, newDefiniteStr, newItem, Mem.bind_apply, allocBlock_fails hx,
      Mem.pure_apply]
    exact .of_fails hx

/-- What the chunk and array loops need of the push that adopts each copy: into a
container holding `grow cs` with room left, it appends the entry and takes a reference
to it, or, only where `R` holds, it fails at an allocator call the schedule fails and
changes nothing. -/
def PushSpec (push : Nat → Nat → Mem Bool) (grow : List Nat → ItemData) (cap : Nat)
    (R : Prop) : Prop :=
  ∀ (h : Heap) (res c : Nat) (cs : List Nat), h.item? res = some (grow cs) →
    (h.item? c).isSome → res ≠ c → cs.length < cap →
    ∃ h', (push res c h = .ok (true, h') ∧
        ((h.modify res fun _ => .item (grow (cs ++ [c]))).setRefcount c
          (h.refcount c + 1)).Alike h') ∨
      (R ∧ push res c h = .ok (false, h') ∧ h.Alike h' ∧ h.allocFails h.calls = true)

theorem item?_modify_ne {res c : Nat} {g : Block → Block} (hne : res ≠ c) :
    (h.modify res g).item? c = h.item? c :=
  item?_congr (modify_mem_ne hne.symm)

/-- A push whose room check is a `realloc`. -/
theorem reallocOk_push {R : Prop} {res c : Nat} {d' : ItemData} (hR : R)
    (hc : (h.item? c).isSome) (hne : res ≠ c) :
    ∃ h', ((do
        if ← reallocOk then
          setItem res d'
          let _ ← cborIncref c
          return true
        else return false) h = .ok (true, h') ∧
        ((h.modify res fun _ => .item d').setRefcount c (h.refcount c + 1)).Alike h') ∨
      (R ∧ (do
        if ← reallocOk then
          setItem res d'
          let _ ← cborIncref c
          return true
        else return false) h = .ok (false, h') ∧ h.Alike h' ∧ h.allocFails h.calls = true) := by
  obtain ⟨dc, hdc⟩ := Option.isSome_iff_exists.mp hc
  cases hx : h.allocFails h.calls
  · refine ⟨_, .inl ⟨?_, alike_tick _⟩⟩
    have hdc' : ((h.modify res fun _ => .item d').tick).item? c = some dc :=
      (item?_modify_ne hne).trans hdc
    simp [Mem.bind_apply, Mem.map_apply, reallocOk, hx, setItem_apply, cborIncref_eq hdc']
  · exact ⟨h.tick, .inr ⟨hR, by simp [Mem.bind_apply, reallocOk, hx], alike_tick h, rfl⟩⟩

theorem addChunk_spec (k : StringKind) (cap : Nat) :
    PushSpec addChunk (fun cs => .str k (.indefinite cs)) cap True := by
  intro h res c cs hres hc hne _
  simpa only [addChunk, Mem.bind_ok (getItem_eq hres)] using reallocOk_push trivial hc hne

/-- `cbor_array_push`; only an indefinite array can refuse, a definite one with room
never does. -/
theorem cborArrayPush_spec (dst : Dst) (cap : Nat) (hcap : ∀ n, dst = .definite n → cap ≤ n) :
    PushSpec cborArrayPush (fun cs => .array dst cs) cap (dst = .indefinite) := by
  intro h res c cs hres hc hne hlt
  cases dst with
  | definite n =>
    obtain ⟨dc, hdc⟩ := Option.isSome_iff_exists.mp hc
    have hdc' : (h.modify res fun _ => .item (.array (.definite n) (cs ++ [c]))).item? c =
        some dc := (item?_modify_ne hne).trans hdc
    refine ⟨_, .inl ⟨?_, Alike.refl _⟩⟩
    simp [cborArrayPush, Mem.bind_apply, Mem.map_apply, getItem_eq hres, hasRoom,
      show cs.length < n from lt_of_lt_of_le hlt (hcap n rfl), setItem_apply, cborIncref_eq hdc']
  | indefinite =>
    simpa only [cborArrayPush, hasRoom, Mem.bind_ok (getItem_eq hres)] using
      reallocOk_push (rfl : Dst.indefinite = .indefinite) hc hne

/-- `cbor_move` undoes the `cbor_incref` of `cbor_array_get` and `cbor_tag_item`. -/
theorem cborMove_cborIncref {α : Type} {c : Nat} (hd : h.item? c = some d) (g : Nat → Mem α) :
    (do g (← cborMove (← cborIncref c))) h = g c h := by
  have hd' : (h.setRefcount c (h.refcount c + 1)).item? c = some d :=
    (item?_congr (by simp)).trans hd
  have hmem : h.mem c = some (.item d) := item?_eq_some.mp hd
  simp [Mem.bind_apply, cborIncref_eq hd, cborMove_eq hd', setRefcount_refcount _ hmem,
    setRefcount_setRefcount, setRefcount_eq_self]

/-- `cbor_map_add` into a map with room left appends the pair and takes a reference to the
key and one to the value, or, only into an indefinite map, fails at an allocator call and
changes nothing. -/
theorem cborMapAdd_spec {dst : Dst} {cap res k v : Nat} {ps : List (Nat × Option Nat)}
    (hcap : ∀ n, dst = .definite n → cap ≤ n) (hres : h.item? res = some (.map dst ps))
    (hk : (h.item? k).isSome) (hv : (h.item? v).isSome) (hrk : res ≠ k) (hrv : res ≠ v)
    (hkv : k ≠ v) (hlt : ps.length < cap) :
    ∃ h', (cborMapAdd res k v h = .ok (true, h') ∧
        (((h.modify res fun _ => .item (.map dst (ps ++ [(k, some v)]))).setRefcount k
          (h.refcount k + 1)).setRefcount v (h.refcount v + 1)).Alike h') ∨
      (dst = .indefinite ∧ cborMapAdd res k v h = .ok (false, h') ∧ h.Alike h' ∧
        h.allocFails h.calls = true) := by
  obtain ⟨dk, hdk⟩ := Option.isSome_iff_exists.mp hk
  obtain ⟨dv, hdv⟩ := Option.isSome_iff_exists.mp hv
  have hdk' : (h.modify res fun _ => .item (.map dst (ps ++ [(k, some v)]))).item? k = some dk :=
    (item?_modify_ne hrk).trans hdk
  have hdv' : ((h.modify res fun _ => .item (.map dst (ps ++ [(k, some v)]))).setRefcount k
      (h.refcount k + 1)).item? v = some dv :=
    (item?_congr (congrFun (setRefcount_mem _ _ _) v)).trans ((item?_modify_ne hrv).trans hdv)
  have hdk'' : (h.modify res fun _ => .item (.map dst (ps ++ [(k, some v)]))).tick.item? k =
      some dk := hdk'
  have hdv'' : ((h.modify res fun _ => .item (.map dst (ps ++ [(k, some v)]))).setRefcount k
      (h.refcount k + 1)).tick.item? v = some dv := hdv'
  cases dst with
  | definite n =>
    refine ⟨_, .inl ⟨?_, Alike.refl _⟩⟩
    simp [cborMapAdd, Mem.bind_apply, Mem.map_apply, getItem_eq hres, hasRoom,
      show ps.length < n from lt_of_lt_of_le hlt (hcap n rfl), setItem_apply, cborIncref_eq hdk',
      cborIncref_eq hdv', setRefcount_refcount_apply, hkv.symm]
  | indefinite =>
    cases hx : h.allocFails h.calls
    · refine ⟨_, .inl ⟨?_, alike_tick _⟩⟩
      simp [cborMapAdd, Mem.bind_apply, Mem.map_apply, getItem_eq hres, hasRoom, reallocOk, hx,
        setItem_apply, cborIncref_eq hdk'', cborIncref_eq hdv'', setRefcount_refcount_apply,
        hkv.symm]
    · exact ⟨h.tick, .inr ⟨rfl, by simp [cborMapAdd, Mem.bind_apply, getItem_eq hres, hasRoom,
        reallocOk, hx], alike_tick h, rfl⟩⟩

end Libcbor.CopySpec
