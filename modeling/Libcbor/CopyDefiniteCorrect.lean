import Libcbor.Collapse
import Libcbor.CopyCorrect
import Mathlib.Algebra.BigOperators.Group.List

/-! `cbor_copy_definite` copies into definite form. On a source graph that unfolds, every
branch returns a fresh tree, owned by the caller alone, that unfolds to the source's
`Item.canon`, or returns `NULL` with contents and counts as they were. Two faults remain:
a `NULL` handed on after a failed allocation (to `cbor_mark_negint` through `cbor_copy`, or
to `set_handle` by a collapse), and the overrun of a collapse buffer whose `size_t` length
wrapped, which needs a chunked string below the source whose lengths reach `2 ^ w`. -/
namespace Libcbor

variable {w : Nat}

theorem Items.canon_ofList (ts : List Item) :
    (Items.ofList ts).canon = Items.ofList (ts.map Item.canon) := by
  induction ts with
  | nil => rfl
  | cons t ts ih => simp only [Items.ofList, Items.canon, ih, List.map_cons]

theorem Pairs.canon_ofList : ∀ ts : List Item,
    (Pairs.ofList ts).canon = Pairs.ofList (ts.map Item.canon)
  | [] | [_] => rfl
  | k :: v :: ts => by
    simp only [Pairs.ofList, Pairs.canon, Pairs.canon_ofList ts, List.map_cons]

theorem Items.fits_ofList (ts : List Item) : (Items.ofList ts).fits w = ts.all (Item.fits w) := by
  induction ts with
  | nil => rfl
  | cons t ts ih => simp only [Items.ofList, Items.fits, ih, List.all_cons]

theorem Pairs.fits_ofList : ∀ ts : List Item, ts.length % 2 = 0 →
    (Pairs.ofList ts).fits w = ts.all (Item.fits w)
  | [], _ => rfl
  | [_], hl => by simp at hl
  | k :: v :: ts, hl => by
    simp only [List.length_cons] at hl
    simp only [Pairs.ofList, Pairs.fits, Pairs.fits_ofList ts (by omega), List.all_cons,
      Bool.and_assoc]

end Libcbor

namespace Libcbor.CopyDefiniteCorrect

open Heap Ops Unfold Own Copy CopySpec CopyLoop CopyCorrect CopyDefinite Collapse

variable {w f p : Nat} {h : Heap} {t tc : Item} {ts : List Item}

/-- A map whose values are all present has an even number of children. -/
theorem length_children_map {dst : Dst} {pairs : List (Nat × Option Nat)}
    (hsome : pairs.all (·.2.isSome)) : (ItemData.map dst pairs).children.length % 2 = 0 := by
  induction pairs with
  | nil => rfl
  | cons kv pairs ih =>
    simp only [List.all_cons, Bool.and_eq_true] at hsome
    obtain ⟨k, _ | v⟩ := kv
    · simp at hsome
    · have hl := ih hsome.2
      simp only [ItemData.children, List.flatMap_cons, Option.toList_some, List.length_append,
        List.length_cons, List.length_nil] at hl ⊢
      omega

theorem bytes_of_mem_mapM {k : StringKind} {bss : List (List UInt8)}
    (hbs : ts.mapM (chunkBytes k) = some bss) (htc : tc ∈ ts) : ∃ bs, tc = .bytes k bs := by
  induction ts generalizing bss with
  | nil => simp at htc
  | cons t ts ih =>
    simp only [List.mapM_cons, Option.bind_eq_bind, Option.bind_eq_some, Option.pure_def,
      Option.some.injEq] at hbs
    obtain ⟨bs, hb, bss', hbss', rfl⟩ := hbs
    rcases List.mem_cons.mp htc with rfl | htc
    · exact ⟨bs, chunkBytes_eq_some.mp hb⟩
    · exact ih hbss' htc

/-- The trees of the children of a tree whose chunked strings fit fit as well. -/
theorem fits_of_mem_children {d : ItemData} {g : Nat → Option Item} (hn : h.node d ts = some t)
    (hts : unfoldAll g d.children = some ts) (ht : t.fits w = true) (htc : tc ∈ ts) :
    tc.fits w = true := by
  have hlen := (unfoldAll_eq_some.mp hts).length_eq
  match d, hn with
  | .uint _, _ | .negint _, _ | .str _ (.definite _ _), _ | .floatCtrl _, _ =>
    simp [ItemData.children] at hlen
    simp [List.length_eq_zero.mp hlen.symm] at htc
  | .str k (.indefinite _), hn =>
    obtain ⟨bss, hbs, rfl⟩ := Option.map_eq_some'.mp hn
    obtain ⟨bs, rfl⟩ := bytes_of_mem_mapM hbs htc
    rfl
  | .array _ _, hn =>
    cases hn
    rw [Item.fits, Items.fits_ofList] at ht
    exact List.all_eq_true.mp ht tc htc
  | .map _ pairs, hn =>
    simp only [node, treeNode] at hn
    split_ifs at hn with hsome
    cases hn
    rw [Item.fits, Pairs.fits_ofList ts (hlen ▸ length_children_map hsome)] at ht
    exact List.all_eq_true.mp ht tc htc
  | .tag _ none, hn => cases hn
  | .tag _ (some _), hn =>
    rcases ts with _ | ⟨t', _ | _⟩ <;> simp [node, treeNode] at hn
    subst hn
    simp only [List.mem_singleton] at htc
    subst htc
    exact ht

/-- The faults `cbor_copy_definite` of a source unfolding to `t` may raise: a `NULL` handed
on after a failed allocation, or the overrun of a collapse buffer, which needs a chunked
string in `t` whose lengths reach `2 ^ w`. -/
def DefiniteFault (w : Nat) (h : Heap) (t : Item) (e : Fault) : Prop :=
  (e = .nullItem ∧ ¬ h.NoFail) ∨ (e = .outOfBounds ∧ t.fits w = false)

theorem DefiniteFault.of_child {e : Fault} (hfit : t.fits w = true → tc.fits w = true)
    (he : DefiniteFault w h tc e) : DefiniteFault w h t e := by
  rcases he with he | ⟨he, hc⟩
  · exact .inl he
  · exact .inr ⟨he, by cases ht : t.fits w <;> simp_all⟩

/-- Integers, floats and definite strings are left to `cbor_copy`, which starts them on
its own fuel. -/
theorem cborCopy_leaf {E : Fault → Prop} {d : ItemData} (hd : h.item? p = some d)
    (hleaf : ∀ g, CopyOutcome E (f + 1) h t (cborCopyAux (g + 1) p h)) :
    CopyOutcome E (f + 1) h t (cborCopy p h) := by
  obtain ⟨g, e⟩ := cborCopy_eq_aux hd
  rw [e]
  exact hleaf g

section Branches

variable {E : Fault → Prop}

/-- The array branch: a definite array of the source's size, filled with definite copies. -/
theorem cborCopyDefiniteAux_array {dst : Dst} {items : List Nat}
    (hd : h.item? p = some (.array dst items)) (hts : unfoldAll (h.unfold f) items = some ts)
    (hcopy : CopiesAll (cborCopyDefiniteAux w f) Item.canon E f h items) (hf : f + 1 ≤ h.next) :
    CopyOutcome E (f + 1) h (Item.array dst.isDefinite (Items.ofList ts)).canon
      (cborCopyDefiniteAux w (f + 1) p h) := by
  rw [cborCopyDefiniteAux, Mem.bind_ok (getItem_eq hd)]
  cases hx : h.allocFails h.calls
  · simp only [cborNewDefiniteArray, newItem, Mem.bind_apply, allocBlock_ok hx, Item.canon,
      Items.canon_ofList]
    exact arrayFill rfl (fun _ e => by cases e; exact Nat.le_refl _) (fun e => by cases e) hts
      hcopy hf
  · simp only [cborNewDefiniteArray, newItem, Mem.bind_apply, allocBlock_fails hx, Mem.pure_apply]
    exact .of_fails hx

/-- The map branch: a definite map of the source's size, filled with definite copies. -/
theorem cborCopyDefiniteAux_map {dst : Dst} {pairs : List (Nat × Option Nat)}
    (hd : h.item? p = some (.map dst pairs)) (hsome : pairs.all (·.2.isSome))
    (hts : unfoldAll (h.unfold f) (ItemData.map dst pairs).children = some ts)
    (hcopy : CopiesAll (cborCopyDefiniteAux w f) Item.canon E f h (ItemData.map dst pairs).children)
    (hf : f + 1 ≤ h.next) :
    CopyOutcome E (f + 1) h (Item.map dst.isDefinite (Pairs.ofList ts)).canon
      (cborCopyDefiniteAux w (f + 1) p h) := by
  rw [cborCopyDefiniteAux, Mem.bind_ok (getItem_eq hd)]
  cases hx : h.allocFails h.calls
  · simp only [cborNewDefiniteMap, newItem, Mem.bind_apply, allocBlock_ok hx, Item.canon,
      Pairs.canon_ofList]
    exact mapFill rfl (fun _ e => by cases e; exact Nat.le_refl _) (fun e => by cases e) hsome hts
      hcopy hf
  · simp only [cborNewDefiniteMap, newItem, Mem.bind_apply, allocBlock_fails hx, Mem.pure_apply]
    exact .of_fails hx

end Branches

/-- Every run of `cbor_copy_definite` below `f` levels, from a heap grown from the source's:
on a source that unfolds to `t` it returns a fresh tree unfolding to `t.canon` or leaves
nothing behind, and it faults only as `DefiniteFault` allows. -/
theorem cborCopyDefiniteAux_outcome (w : Nat) : ∀ (f : Nat) {h₀ h : Heap} {p : Nat} {t : Item},
    h₀.unfold f p = some t → h₀.Grows h → f ≤ h.next →
    CopyOutcome (DefiniteFault w h₀ t) f h t.canon (cborCopyDefiniteAux w f p h)
  | 0, _, _, _, _, hu, _, _ => by simp [unfold] at hu
  | f + 1, h₀, h, p, t, hu, hg, hf => by
    obtain ⟨d, ts, -, hts₀, hn₀, hd, hts, hn⟩ := hg.node_of_unfold hu
    have hcopy : CopiesAll (cborCopyDefiniteAux w f) Item.canon (DefiniteFault w h₀ t) f h
        d.children := fun c hc t' h' htc hg' => by
      obtain ⟨tc, htc₀⟩ := exists_of_unfoldAll hts₀ hc
      rw [(hg.unfold htc₀).1] at htc
      cases htc
      exact (cborCopyDefiniteAux_outcome w f htc₀ (hg.trans hg') (by have := hg'.next_le; omega)).mono
        fun _ => .of_child fun ht => fits_of_mem_children hn₀ hts₀ ht (mem_of_unfoldAll hts₀ hc htc₀)
    have hf' : f + 1 ≤ h.next := hf
    cases d with
    | uint n =>
      cases hn
      rw [cborCopyDefiniteAux, Mem.bind_ok (getItem_eq hd)]
      exact cborCopy_leaf hd fun _ => by
        rw [cborCopyAux, Mem.bind_ok (getItem_eq hd)]
        exact cborCopyInt_uint hd
    | negint n =>
      cases hn
      rw [cborCopyDefiniteAux, Mem.bind_ok (getItem_eq hd)]
      exact cborCopy_leaf hd fun _ => by
        rw [cborCopyAux, Mem.bind_ok (getItem_eq hd)]
        exact (cborCopyInt_negint hd).mono fun _ ⟨he, hnf⟩ => .inl ⟨he, not_noFail_of_grows hg hnf⟩
    | str k s =>
      cases s with
      | definite handle length =>
        obtain ⟨bs, hbs, rfl⟩ := Option.map_eq_some'.mp hn
        rw [cborCopyDefiniteAux, Mem.bind_ok (getItem_eq hd)]
        exact cborCopy_leaf hd fun _ => by
          rw [cborCopyAux, Mem.bind_ok (getItem_eq hd)]
          exact buildStr_outcome hbs
      | indefinite chunks =>
        obtain ⟨bss, hbs, rfl⟩ := Option.map_eq_some'.mp hn
        rw [cborCopyDefiniteAux, Mem.bind_ok (getItem_eq hd)]
        exact (collapseChunks_outcome (chunksAt_of_unfoldAll hts hbs)).mono fun _ he =>
          he.imp (fun ⟨he, hnf⟩ => ⟨he, not_noFail_of_grows hg hnf⟩)
            fun ⟨he, hw⟩ => ⟨he, by simpa only [Item.fits, decide_eq_false_iff_not, not_lt]⟩
    | array dst items =>
      cases hn
      exact cborCopyDefiniteAux_array hd hts hcopy hf'
    | map dst pairs =>
      obtain ⟨hsome, rfl⟩ := node_map hn
      exact cborCopyDefiniteAux_map hd hsome hts hcopy hf'
    | tag value item =>
      obtain ⟨c, tc, rfl, rfl, rfl⟩ := node_tag hn
      obtain ⟨_, _, htc, -, e⟩ := unfoldAll_cons_eq_some.mp hts
      cases e
      rw [cborCopyDefiniteAux, Mem.bind_ok (getItem_eq hd)]
      exact copyTag_outcome hd htc hcopy hf'
    | floatCtrl v =>
      cases hn
      rw [cborCopyDefiniteAux, Mem.bind_ok (getItem_eq hd)]
      exact cborCopy_leaf hd fun _ => by
        rw [cborCopyAux, Mem.bind_ok (getItem_eq hd)]
        exact cborCopyFloatCtrl_outcome hd

/-- `cbor_copy_definite` of an acyclic, complete item graph, under any allocator failure
schedule: a fresh tree owned by the caller alone that unfolds to the source's canonical
form, or `NULL` with contents and counts as they were after a failed allocation, or a
fault that `DefiniteFault` allows. -/
theorem cborCopyDefinite_outcome {h : Heap} {p : Nat} {t : Item} (w : Nat)
    (hu : ∃ f, h.unfold f p = some t) :
    CopyOutcome (DefiniteFault w h t) h.next h t.canon (cborCopyDefinite w p h) := by
  obtain ⟨f, hf⟩ := hu
  exact cborCopyDefiniteAux_outcome w h.next (unfold_next hf) (Grows.refl h) le_rfl

/-- An indefinite byte string of two chunks, `01 02` and `03 04 05`, under the allocator
failure schedule `fails`. -/
def chunkHeap (fails : Nat → Bool) : Heap :=
  .ofBlocks [.item (.str .bytestring (.indefinite [1, 3])),
    .item (.str .bytestring (.definite (some 2) 2)), .bytes [1, 2],
    .item (.str .bytestring (.definite (some 4) 3)), .bytes [3, 4, 5]] fails

theorem cborCopyDefinite_outcome_chunkHeap :
    (∃ f, (chunkHeap fun _ => false).unfold f 0 =
      some (.chunked .bytestring [[1, 2], [3, 4, 5]])) ∧
    CopyOutcome (DefiniteFault 64 (chunkHeap fun _ => false) (.chunked .bytestring [[1, 2], [3, 4, 5]]))
      (chunkHeap fun _ => false).next (chunkHeap fun _ => false) (.bytes .bytestring [1, 2, 3, 4, 5])
      (cborCopyDefinite 64 0 (chunkHeap fun _ => false)) :=
  ⟨⟨2, rfl⟩, cborCopyDefinite_outcome 64 ⟨2, rfl⟩⟩

/-- Without allocation failures and with every chunked string fitting, the copy succeeds
and adds a fresh tree. -/
theorem cborCopyDefinite_adds {h : Heap} {p w : Nat} {t : Item}
    (hu : ∃ f, h.unfold f p = some t) (hnf : h.NoFail) (hfit : t.fits w = true) :
    ∃ q h', cborCopyDefinite w p h = .ok (some q, h') ∧ h.Adds h.next h' [q] ∧
      h'.unfold h.next q = some t.canon := by
  have hr := cborCopyDefiniteAux_outcome w h.next (unfold_next hu.choose_spec) (Grows.refl h)
    le_rfl
  rcases hc : cborCopyDefinite w p h with e | ⟨_ | q, h'⟩ <;> rw [cborCopyDefinite] at hc <;>
    rw [hc] at hr
  · rcases hr with ⟨-, hn⟩ | ⟨-, hf⟩
    · exact absurd hnf hn
    · rw [hfit] at hf; cases hf
  · exact absurd hnf hr.2
  · exact ⟨q, h', rfl, hr⟩

/-- With an allocator that never fails, `cbor_copy_definite` of an acyclic, complete graph
whose chunked strings all have lengths adding up below `2 ^ w` returns an item that unfolds
to the source's canonical form, in which nothing is indefinite. -/
theorem cborCopyDefinite_canon {h : Heap} {p w : Nat} {t : Item}
    (hu : ∃ f, h.unfold f p = some t) (hnf : h.NoFail) (hfit : t.fits w = true) :
    ∃ q h', cborCopyDefinite w p h = .ok (some q, h') ∧ h'.unfold h.next q = some t.canon ∧
      t.canon.allDefinite = true :=
  let ⟨q, h', hc, _, hq⟩ := cborCopyDefinite_adds hu hnf hfit
  ⟨q, h', hc, hq, Item.allDefinite_canon t⟩

theorem cborCopyDefinite_canon_chunkHeap :
    (∃ f, (chunkHeap fun _ => false).unfold f 0 =
      some (.chunked .bytestring [[1, 2], [3, 4, 5]])) ∧
    (chunkHeap fun _ => false).NoFail ∧ (Item.chunked .bytestring [[1, 2], [3, 4, 5]]).fits 64 ∧
    ∃ q h', cborCopyDefinite 64 0 (chunkHeap fun _ => false) = .ok (some q, h') ∧
      h'.unfold (chunkHeap fun _ => false).next q = some (.bytes .bytestring [1, 2, 3, 4, 5]) ∧
      (Item.bytes .bytestring [1, 2, 3, 4, 5]).allDefinite :=
  have hu : ∃ f, (chunkHeap fun _ => false).unfold f 0 =
      some (.chunked .bytestring [[1, 2], [3, 4, 5]]) := ⟨2, rfl⟩
  ⟨hu, fun _ _ => rfl, by decide, cborCopyDefinite_canon hu (fun _ _ => rfl) (by decide)⟩

/-- On a graph in which nothing is indefinite, `cbor_copy_definite` with an allocator that
never fails makes an exact copy, as `cbor_copy` does. -/
theorem cborCopyDefinite_exact {h : Heap} {p w : Nat} {t : Item}
    (hu : ∃ f, h.unfold f p = some t) (hnf : h.NoFail) (hdef : t.allDefinite = true) :
    ∃ q h', cborCopyDefinite w p h = .ok (some q, h') ∧ h.Adds h.next h' [q] ∧
      h'.unfold h.next q = some t := by
  rw [← Item.canon_of_allDefinite t hdef]
  exact cborCopyDefinite_adds hu hnf (Item.fits_of_allDefinite w t hdef)

theorem cborCopyDefinite_exact_chunk :
    (∃ f, (chunkHeap fun _ => false).unfold f 1 = some (.bytes .bytestring [1, 2])) ∧
    (chunkHeap fun _ => false).NoFail ∧ (Item.bytes .bytestring [1, 2]).allDefinite ∧
    ∃ q h', cborCopyDefinite 64 1 (chunkHeap fun _ => false) = .ok (some q, h') ∧
      (chunkHeap fun _ => false).Adds (chunkHeap fun _ => false).next h' [q] ∧
      h'.unfold (chunkHeap fun _ => false).next q = some (.bytes .bytestring [1, 2]) :=
  have hu : ∃ f, (chunkHeap fun _ => false).unfold f 1 = some (.bytes .bytestring [1, 2]) :=
    ⟨1, rfl⟩
  ⟨hu, fun _ _ => rfl, rfl, cborCopyDefinite_exact hu (fun _ _ => rfl) rfl⟩

theorem cborCopyDefinite_chunked {h : Heap} {p w : Nat} {k : StringKind} {cs : List Nat}
    (hd : h.item? p = some (.str k (.indefinite cs))) :
    cborCopyDefinite w p h = collapseChunks w k cs h := by
  rw [cborCopyDefinite, ← Nat.sub_add_cancel (Nat.one_le_of_lt (lt_next_of_isSome
    (isSome_mem_of_item? hd))), cborCopyDefiniteAux, Mem.bind_ok (getItem_eq hd)]

/-- Collapsing a chunked string whose lengths fit, when the combined buffer is allocated and
the new definite string is not, `cbor_copy_definite` hands `NULL` to
`cbor_bytestring_set_handle` (`cbor_string_set_handle`), and the buffer is not released. -/
theorem cborCopyDefinite_setHandle_null {h : Heap} {p f w : Nat} {k : StringKind}
    {bss : List (List UInt8)} (hu : h.unfold f p = some (.chunked k bss))
    (hw : bss.flatten.length < 2 ^ w) (hx : h.allocFails h.calls = false)
    (hy : h.allocFails (h.calls + 1) = true) : cborCopyDefinite w p h = .error .nullItem := by
  obtain ⟨cs, hd, hcs⟩ := chunked_of_unfold hu
  rw [cborCopyDefinite_chunked hd]
  exact collapseChunks_null hcs hw hx hy

theorem cborCopyDefinite_setHandle_null_chunkHeap :
    (chunkHeap fun n => n == 1).unfold 2 0 = some (.chunked .bytestring [[1, 2], [3, 4, 5]]) ∧
    [[1, 2], [3, 4, 5]].flatten.length < 2 ^ 64 ∧
    (chunkHeap fun n => n == 1).allocFails (chunkHeap fun n => n == 1).calls = false ∧
    (chunkHeap fun n => n == 1).allocFails ((chunkHeap fun n => n == 1).calls + 1) = true ∧
    cborCopyDefinite 64 0 (chunkHeap fun n => n == 1) = .error .nullItem :=
  have hu : (chunkHeap fun n => n == 1).unfold 2 0 =
      some (.chunked .bytestring [[1, 2], [3, 4, 5]]) := rfl
  ⟨hu, by decide, rfl, rfl, cborCopyDefinite_setHandle_null hu (by decide) rfl rfl⟩

theorem cborCopyDefinite_chunked_wrap {h : Heap} {p f w : Nat} {k : StringKind}
    {bss : List (List UInt8)} (hu : h.unfold f p = some (.chunked k bss))
    (hw : 2 ^ w ≤ bss.flatten.length) (hx : h.allocFails h.calls = false) :
    cborCopyDefinite w p h = .error .outOfBounds := by
  obtain ⟨cs, hd, hcs⟩ := chunked_of_unfold hu
  rw [cborCopyDefinite_chunked hd]
  exact collapseChunks_wrap hcs hw hx

/-- `cbor_copy_definite` of a chunked string whose chunks hold `bss`: `total_length` comes
out as the sum of their lengths modulo `2 ^ w`, and once that sum reaches `2 ^ w` the copy
writes past the end of the combined buffer it allocated. -/
theorem cborCopyDefinite_wrap {h : Heap} {p f w : Nat} {k : StringKind} {bss : List (List UInt8)}
    (hu : h.unfold f p = some (.chunked k bss)) (hw : 2 ^ w ≤ bss.flatten.length)
    (hx : h.allocFails h.calls = false) :
    (∃ cs, h.item? p = some (.str k (.indefinite cs)) ∧
      totalLength w k 0 cs h = .ok (bss.flatten.length % 2 ^ w, h)) ∧
    cborCopyDefinite w p h = .error .outOfBounds := by
  obtain ⟨cs, hd, hcs⟩ := chunked_of_unfold hu
  refine ⟨⟨cs, hd, ?_⟩, cborCopyDefinite_chunked_wrap hu hw hx⟩
  simpa using totalLength_eq hcs (Nat.two_pow_pos w)

theorem unfoldAll_replicate {g : Nat → Option Item} {c : Nat} (hc : g c = some t) (n : Nat) :
    unfoldAll g (List.replicate n c) = some (List.replicate n t) := by
  induction n with
  | zero => rfl
  | succ n ih => simp only [List.replicate_succ, unfoldAll, hc, ih]

theorem mapM_chunkBytes_replicate {k : StringKind} {bs : List UInt8} (n : Nat) :
    (List.replicate n (Item.bytes k bs)).mapM (chunkBytes k) = some (List.replicate n bs) := by
  induction n with
  | zero => rfl
  | succ n ih =>
    rw [List.replicate_succ, List.mapM_cons, ih]
    simp [chunkBytes, List.replicate_succ]

/-- A byte string of 256 chunks, all the same chunk of `2 ^ 24` bytes (16 MiB): 4 GiB of
bytes, which a 32-bit `size_t` cannot count. The allocator never fails. -/
def wrapHeap : Heap :=
  .ofBlocks [.item (.str .bytestring (.indefinite (List.replicate 256 1))),
    .item (.str .bytestring (.definite (some 2) (2 ^ 24))), .bytes (List.replicate (2 ^ 24) 0)]
    fun _ => false

theorem wrapHeap_unfold : wrapHeap.unfold 2 0 =
    some (.chunked .bytestring (List.replicate 256 (List.replicate (2 ^ 24) 0))) := by
  have hi : wrapHeap.item? 0 = some (.str .bytestring (.indefinite (List.replicate 256 1))) := rfl
  have hi1 : wrapHeap.item? 1 = some (.str .bytestring (.definite (some 2) (2 ^ 24))) := rfl
  have hm : wrapHeap.mem 2 = some (.bytes (List.replicate (2 ^ 24) 0)) := rfl
  have hc : wrapHeap.unfold 1 1 = some (.bytes .bytestring (List.replicate (2 ^ 24) 0)) := by
    rw [unfold_succ, hi1, Option.some_bind]
    simp only [ItemData.children]
    rw [unfoldAll, Option.some_bind, node, bytesAt_of_mem hm (List.length_replicate _ _),
      Option.map_some']
  rw [unfold_succ, hi, Option.some_bind, ItemData.children, unfoldAll_replicate hc,
    Option.some_bind]
  simp only [node, treeNode, mapM_chunkBytes_replicate, Option.map_some']

theorem wrapHeap_sum :
    2 ^ 32 ≤ (List.replicate 256 (List.replicate (2 ^ 24) (0 : UInt8))).flatten.length := by
  rw [List.length_flatten, List.map_replicate, List.length_replicate, List.sum_replicate]
  decide

theorem cborCopyDefinite_wrap_wrapHeap :
    wrapHeap.unfold 2 0 =
      some (.chunked .bytestring (List.replicate 256 (List.replicate (2 ^ 24) 0))) ∧
    2 ^ 32 ≤ (List.replicate 256 (List.replicate (2 ^ 24) (0 : UInt8))).flatten.length ∧
    wrapHeap.allocFails wrapHeap.calls = false ∧
    (∃ cs, wrapHeap.item? 0 = some (.str .bytestring (.indefinite cs)) ∧
      totalLength 32 .bytestring 0 cs wrapHeap = .ok
        ((List.replicate 256 (List.replicate (2 ^ 24) (0 : UInt8))).flatten.length % 2 ^ 32,
          wrapHeap)) ∧
    cborCopyDefinite 32 0 wrapHeap = .error .outOfBounds :=
  ⟨wrapHeap_unfold, wrapHeap_sum, rfl, cborCopyDefinite_wrap wrapHeap_unfold wrapHeap_sum rfl⟩

/-- The graph of `wrapHeap` is acyclic and complete and no allocation fails, yet
`cbor_copy_definite` on a 32-bit `size_t` overruns the buffer it allocated instead of
returning the canonical copy. -/
theorem cborCopyDefinite_wrap_fault : wrapHeap.NoFail ∧
    wrapHeap.unfold 2 0 =
      some (.chunked .bytestring (List.replicate 256 (List.replicate (2 ^ 24) 0))) ∧
    cborCopyDefinite 32 0 wrapHeap = .error .outOfBounds :=
  ⟨fun _ _ => rfl, wrapHeap_unfold, cborCopyDefinite_chunked_wrap wrapHeap_unfold wrapHeap_sum rfl⟩

/-- A successful `cbor_copy` or `cbor_copy_definite` of an acyclic, complete graph, shared
subitems included, keeps every block that existed with its contents and count, and adds one
fresh tree below the result: every new block is reached from the result along exactly one
path, and every new item counts one reference. -/
theorem copy_fresh_tree {h : Heap} {p : Nat} {t : Item} (w : Nat)
    (hu : ∃ f, h.unfold f p = some t) :
    (∀ q h', cborCopy p h = .ok (some q, h') → h.Adds h.next h' [q]) ∧
      ∀ q h', cborCopyDefinite w p h = .ok (some q, h') → h.Adds h.next h' [q] := by
  obtain ⟨f, hf⟩ := hu
  refine ⟨fun q h' hc => ?_, fun q h' hc => ?_⟩
  · have hr := cborCopyAux_outcome h.next (unfold_next hf) (Grows.refl h) le_rfl
    rw [← cborCopy, hc] at hr
    exact hr.1
  · have hr := cborCopyDefiniteAux_outcome w h.next (unfold_next hf) (Grows.refl h) le_rfl
    rw [← cborCopyDefinite, hc] at hr
    exact hr.1

theorem copy_fresh_tree_wrapHeap :
    (∃ f, wrapHeap.unfold f 0 =
      some (.chunked .bytestring (List.replicate 256 (List.replicate (2 ^ 24) 0)))) ∧
    (∀ q h', cborCopy 0 wrapHeap = .ok (some q, h') → wrapHeap.Adds wrapHeap.next h' [q]) ∧
      ∀ q h', cborCopyDefinite 64 0 wrapHeap = .ok (some q, h') →
        wrapHeap.Adds wrapHeap.next h' [q] :=
  ⟨⟨2, wrapHeap_unfold⟩, copy_fresh_tree 64 ⟨2, wrapHeap_unfold⟩⟩

/-- A copy is released whole by one `cbor_decref`: after a `cbor_copy` or a
`cbor_copy_definite` that succeeds, `cbor_decref` of the copy returns the heap to the
contents and counts it had before the copy. -/
theorem copy_decref_round_trip {h : Heap} {p : Nat} {t : Item} (w : Nat)
    (hu : ∃ f, h.unfold f p = some t) :
    (∀ q h', cborCopy p h = .ok (some q, h') →
      ∃ h'', cborDecref q h' = .ok ((), h'') ∧ h.Alike h'') ∧
    ∀ q h', cborCopyDefinite w p h = .ok (some q, h') →
      ∃ h'', cborDecref q h' = .ok ((), h'') ∧ h.Alike h'' := by
  obtain ⟨f, hf⟩ := hu
  refine ⟨fun q h' hc => ?_, fun q h' hc => ?_⟩
  · have hr := cborCopyAux_outcome h.next (unfold_next hf) (Grows.refl h) le_rfl
    rw [← cborCopy, hc] at hr
    exact hr.1.release hr.2 le_rfl (Heap.Alike.refl h')
  · have hr := cborCopyDefiniteAux_outcome w h.next (unfold_next hf) (Grows.refl h) le_rfl
    rw [← cborCopyDefinite, hc] at hr
    exact hr.1.release hr.2 le_rfl (Heap.Alike.refl h')

theorem copy_decref_round_trip_chunkHeap :
    (∃ f, (chunkHeap fun _ => false).unfold f 0 =
      some (.chunked .bytestring [[1, 2], [3, 4, 5]])) ∧
    (∀ q h', cborCopy 0 (chunkHeap fun _ => false) = .ok (some q, h') →
      ∃ h'', cborDecref q h' = .ok ((), h'') ∧ (chunkHeap fun _ => false).Alike h'') ∧
    ∀ q h', cborCopyDefinite 64 0 (chunkHeap fun _ => false) = .ok (some q, h') →
      ∃ h'', cborDecref q h' = .ok ((), h'') ∧ (chunkHeap fun _ => false).Alike h'' :=
  ⟨⟨2, rfl⟩, copy_decref_round_trip 64 ⟨2, rfl⟩⟩

/-- `cbor_copy_definite` is idempotent: with an allocator that never fails, the definite
copy of a graph whose chunked strings fit is copied again exactly, into a second fresh tree
that unfolds to the same canonical form. -/
theorem cborCopyDefinite_twice {h : Heap} {p w : Nat} {t : Item}
    (hu : ∃ f, h.unfold f p = some t) (hnf : h.NoFail) (hfit : t.fits w = true) :
    ∃ q h', cborCopyDefinite w p h = .ok (some q, h') ∧
      ∃ q' h'', cborCopyDefinite w q h' = .ok (some q', h'') ∧
        h''.unfold h'.next q' = some t.canon := by
  obtain ⟨q, h', hc, hA, hq⟩ := cborCopyDefinite_adds hu hnf hfit
  have hdef := Item.allDefinite_canon t
  obtain ⟨q', h'', hc', -, hq'⟩ := cborCopyDefinite_adds ⟨_, hq⟩ (hnf.grows hA.toGrows)
    (Item.fits_of_allDefinite w _ hdef)
  rw [Item.canon_of_allDefinite _ hdef] at hq'
  exact ⟨q, h', hc, q', h'', hc', hq'⟩

theorem cborCopyDefinite_twice_chunkHeap :
    (∃ f, (chunkHeap fun _ => false).unfold f 0 =
      some (.chunked .bytestring [[1, 2], [3, 4, 5]])) ∧
    (chunkHeap fun _ => false).NoFail ∧ (Item.chunked .bytestring [[1, 2], [3, 4, 5]]).fits 64 ∧
    ∃ q h', cborCopyDefinite 64 0 (chunkHeap fun _ => false) = .ok (some q, h') ∧
      ∃ q' h'', cborCopyDefinite 64 q h' = .ok (some q', h'') ∧
        h''.unfold h'.next q' = some (.bytes .bytestring [1, 2, 3, 4, 5]) :=
  have hu : ∃ f, (chunkHeap fun _ => false).unfold f 0 =
      some (.chunked .bytestring [[1, 2], [3, 4, 5]]) := ⟨2, rfl⟩
  ⟨hu, fun _ _ => rfl, by decide, cborCopyDefinite_twice hu (fun _ _ => rfl) (by decide)⟩

/-- Releasing a source the caller owns alone, all of whose blocks are allocated, leaves a
fresh tree built beside it as it was: the two share no block. -/
theorem decref_source_keeps {h h' : Heap} {g g' p q : Nat} {t tq : Item}
    (hu : h.unfold g p = some t) (hx : h.Exclusive g p)
    (hlive : ∀ a ∈ h.footprint g p, (h.mem a).isSome) (hA : h.Adds g' h' [q])
    (hq : h'.unfold g' q = some tq) (hg : g ≤ h'.next) :
    ∃ h'', cborDecref p h' = .ok ((), h'') ∧ h'.Frees h'' (h.footprint g p) ∧
      h''.unfold g' q = some tq := by
  obtain ⟨hu', hfp⟩ := hA.toGrows.unfold hu
  have hold : ∀ a ∈ h.footprint g p, h'.mem a = h.mem a ∧ h'.refcount a = h.refcount a :=
    fun a ha => hA.old a (lt_next_of_isSome (hlive a ha))
  have hx' : h'.Exclusive g p := by
    rw [Exclusive, hfp]
    exact ⟨hx.1, fun a ha hs => (hold a ha).2.trans
      (hx.2 a ha (by rwa [item?_congr (hold a ha).1] at hs))⟩
  obtain ⟨h'', hd, hfr⟩ := cborDecrefAux_frees (live_of_unfold hu') hg hx'
  refine ⟨h'', hd, hfp ▸ hfr, ?_⟩
  rw [(unfold_congr fun a ha => hfr.mem_of_not_mem fun hp => ?_).1, hq]
  -- the copy's blocks are fresh, the source's are not
  have hlt := lt_next_of_isSome (hlive a (hfp ▸ hp))
  have hge := hA.fresh a (by simpa using ha)
  omega

/-- A copy is deep: after a `cbor_copy` or a `cbor_copy_definite` that succeeds, releasing
a source the caller owns alone, all of whose blocks are allocated, frees exactly the source's
blocks and leaves the copy, which still unfolds to the source's tree (to its canonical form
for the definite copy). -/
theorem copy_decref_source {h : Heap} {p f : Nat} {t : Item} (w : Nat)
    (hu : h.unfold f p = some t) (hx : h.Exclusive f p)
    (hlive : ∀ a ∈ h.footprint f p, (h.mem a).isSome) :
    (∀ q h', cborCopy p h = .ok (some q, h') →
      ∃ h'', cborDecref p h' = .ok ((), h'') ∧ h'.Frees h'' (h.footprint f p) ∧
        h''.unfold h.next q = some t) ∧
    ∀ q h', cborCopyDefinite w p h = .ok (some q, h') →
      ∃ h'', cborDecref p h' = .ok ((), h'') ∧ h'.Frees h'' (h.footprint f p) ∧
        h''.unfold h.next q = some t.canon := by
  have hfp := footprint_next hu
  have hx' : h.Exclusive h.next p := by rw [Exclusive, hfp]; exact hx
  have hlive' : ∀ a ∈ h.footprint h.next p, (h.mem a).isSome := hfp ▸ hlive
  refine ⟨fun q h' hc => ?_, fun q h' hc => ?_⟩
  · have hr := cborCopyAux_outcome h.next (unfold_next hu) (Grows.refl h) le_rfl
    rw [← cborCopy, hc] at hr
    exact hfp ▸ decref_source_keeps (unfold_next hu) hx' hlive' hr.1 hr.2 hr.1.next_le
  · have hr := cborCopyDefiniteAux_outcome w h.next (unfold_next hu) (Grows.refl h) le_rfl
    rw [← cborCopyDefinite, hc] at hr
    exact hfp ▸ decref_source_keeps (unfold_next hu) hx' hlive' hr.1 hr.2 hr.1.next_le

theorem copy_decref_source_chunkHeap :
    (chunkHeap fun _ => false).unfold 2 0 = some (.chunked .bytestring [[1, 2], [3, 4, 5]]) ∧
    (chunkHeap fun _ => false).Exclusive 2 0 ∧
    (∀ a ∈ (chunkHeap fun _ => false).footprint 2 0, ((chunkHeap fun _ => false).mem a).isSome) ∧
    (∀ q h', cborCopy 0 (chunkHeap fun _ => false) = .ok (some q, h') →
      ∃ h'', cborDecref 0 h' = .ok ((), h'') ∧
        h'.Frees h'' ((chunkHeap fun _ => false).footprint 2 0) ∧
        h''.unfold (chunkHeap fun _ => false).next q =
          some (.chunked .bytestring [[1, 2], [3, 4, 5]])) ∧
    ∀ q h', cborCopyDefinite 64 0 (chunkHeap fun _ => false) = .ok (some q, h') →
      ∃ h'', cborDecref 0 h' = .ok ((), h'') ∧
        h'.Frees h'' ((chunkHeap fun _ => false).footprint 2 0) ∧
        h''.unfold (chunkHeap fun _ => false).next q = some (.bytes .bytestring [1, 2, 3, 4, 5]) :=
  have hu : (chunkHeap fun _ => false).unfold 2 0 =
      some (.chunked .bytestring [[1, 2], [3, 4, 5]]) := rfl
  have hx : (chunkHeap fun _ => false).Exclusive 2 0 := by unfold Heap.Exclusive; decide
  have hlive : ∀ a ∈ (chunkHeap fun _ => false).footprint 2 0,
      ((chunkHeap fun _ => false).mem a).isSome := by decide
  ⟨hu, hx, hlive, copy_decref_source 64 hu hx hlive⟩

end Libcbor.CopyDefiniteCorrect
