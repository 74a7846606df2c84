import Libcbor.Describe
import Libcbor.CopyDefiniteCorrect

/-! `cbor_describe` prints the tree. On a graph that unfolds, `_cbor_nested_describe` never
faults, leaves contents and counts as they were (the count `cbor_tag_item` takes is given
back by `cbor_move`), and writes `Item.describe` of the unfolding: what it prints depends on
the tree alone, not on how the graph shares its nodes. -/
namespace Libcbor

open Describe

variable {env : DescribeEnv}

theorem Items.describe_ofList (ind : Nat) :
    ∀ ts : List Item, (Items.ofList ts).describe env ind = (ts.map (·.describe env ind)).flatten
  | [] => rfl
  | t :: ts => by
    simp only [Items.ofList, Items.describe, Items.describe_ofList ind ts, List.map_cons,
      List.flatten_cons]

theorem Items.length_ofList : ∀ ts : List Item, (Items.ofList ts).length = ts.length
  | [] => rfl
  | _ :: ts => congrArg (· + 1) (Items.length_ofList ts)

theorem Pairs.length_ofList : ∀ ts : List Item, (Pairs.ofList ts).length = ts.length / 2
  | [] | [_] => by simp [Pairs.ofList, Pairs.length]
  | _ :: _ :: ts => by
    simp only [Pairs.ofList, Pairs.length, Pairs.length_ofList ts, List.length_cons]
    omega

namespace Mem

variable {α β : Type} {h : Heap}

/-- Whenever `x`, run from `h`, returns, it leaves `h` as it was. -/
def Keeps (x : Mem α) (h : Heap) : Prop := ∀ a h', x h = .ok (a, h') → h' = h

theorem Keeps.pure (a : α) : (pure a : Mem α).Keeps h := fun _ _ e => by cases e; rfl

theorem Keeps.throw (e : Fault) : (throw e : Mem α).Keeps h := fun _ _ he => by cases he

theorem Keeps.bind {x : Mem α} {g : α → Mem β} (hx : x.Keeps h)
    (hg : ∀ a, x h = .ok (a, h) → (g a).Keeps h) : (x >>= g).Keeps h := by
  intro b h' hb
  rw [bind_apply] at hb
  rcases hxh : x h with e | ⟨a, h₁⟩ <;> rw [hxh] at hb
  · cases hb
  · obtain rfl := hx a h₁ hxh
    exact hg a hxh b h' hb

theorem Keeps.mapM {g : α → Mem β} : ∀ {xs : List α}, (∀ x ∈ xs, (g x).Keeps h) →
    (xs.mapM g).Keeps h
  | [], _ => Keeps.pure []
  | x :: xs, hg => by
    rw [List.mapM_cons]
    exact (hg x (List.mem_cons_self x xs)).bind fun _ _ =>
      (Keeps.mapM fun y hy => hg y (List.mem_cons_of_mem x hy)).bind fun _ _ => Keeps.pure _

end Mem

end Libcbor

namespace Libcbor.DescribeCorrect

open Heap Ops Unfold Own Copy CopySpec CopyCorrect Describe Collapse

variable {env : DescribeEnv} {h : Heap} {f p : Nat} {t : Item} {ts : List Item}

/-- A loop of calls that each leave the heap as it is. -/
theorem mapM_of_forall₂ {α β : Type} {g : α → Mem β} {xs : List α} {ys : List β}
    (hxy : List.Forall₂ (fun x y => g x h = .ok (y, h)) xs ys) : xs.mapM g h = .ok (ys, h) := by
  induction hxy with
  | nil => rfl
  | cons hx _ ih => simp only [List.mapM_cons, Mem.bind_apply, hx, ih]; rfl

/-- A map whose values are all present holds two references per pair. -/
theorem length_flatMap_pairs {pairs : List (Nat × Option Nat)} (hsome : pairs.all (·.2.isSome)) :
    (pairs.flatMap fun kv => kv.1 :: kv.2.toList).length = 2 * pairs.length := by
  induction pairs with
  | nil => rfl
  | cons kv pairs ih =>
    simp only [List.all_cons, Bool.and_eq_true] at hsome
    obtain ⟨v, hv⟩ := Option.isSome_iff_exists.mp hsome.1
    simp only [List.flatMap_cons, hv, Option.toList_some, List.length_append, List.length_cons,
      List.length_nil, ih hsome.2]
    omega

theorem eq_map_bytes_of_mapM {k : StringKind} :
    ∀ {ts : List Item} {bss : List (List UInt8)}, ts.mapM (chunkBytes k) = some bss →
      ts = bss.map (.bytes k)
  | [], _, hbs => by cases hbs; rfl
  | t :: ts, bss, hbs => by
    simp only [List.mapM_cons, Option.bind_eq_bind, Option.bind_eq_some, Option.pure_def,
      Option.some.injEq] at hbs
    obtain ⟨bs, hb, bss', hbss', rfl⟩ := hbs
    rw [chunkBytes_eq_some.mp hb, eq_map_bytes_of_mapM hbss', List.map_cons]

section
variable (hrec : ∀ c tc ind, h.unfold f c = some tc →
  cborNestedDescribe env f c ind h = .ok (tc.describe env ind, h))
include hrec

/-- The loop over chunks or array items prints each child at the indentation given. -/
theorem mapM_describe {cs : List Nat} (hts : unfoldAll (h.unfold f) cs = some ts) (ind : Nat) :
    cs.mapM (fun c => cborNestedDescribe env f c ind) h = .ok (ts.map (·.describe env ind), h) :=
  mapM_of_forall₂ (List.forall₂_map_right_iff.mpr
    ((unfoldAll_eq_some.mp hts).imp fun _ _ hc => hrec _ _ _ hc))

/-- The loop over map pairs prints pair `i` onwards as `Pairs.describe` does. -/
theorem mapM_describe_pairs (ind : Nat) : ∀ {pairs : List (Nat × Option Nat)} {ts : List Item}
    (i : Nat), pairs.all (·.2.isSome) →
    unfoldAll (h.unfold f) (pairs.flatMap fun kv => kv.1 :: kv.2.toList) = some ts →
    ∃ parts, (pairs.enumFrom i).mapM (describeMapEntry (cborNestedDescribe env f) ind) h =
      .ok (parts, h) ∧ parts.flatten = (Pairs.ofList ts).describe env i ind
  | [], _, _, _, hts => by cases hts; exact ⟨[], rfl, rfl⟩
  | (k, v) :: pairs, ts, i, hsome, hts => by
    simp only [List.all_cons, Bool.and_eq_true] at hsome
    obtain ⟨v, rfl⟩ := Option.isSome_iff_exists.mp hsome.1
    simp only [List.flatMap_cons, Option.toList_some, List.cons_append, List.nil_append] at hts
    obtain ⟨tk, ts₁, hk, hts₁, rfl⟩ := unfoldAll_cons_eq_some.mp hts
    obtain ⟨tv, ts₂, hv, hts₂, rfl⟩ := unfoldAll_cons_eq_some.mp hts₁
    obtain ⟨parts, hparts, hflat⟩ := mapM_describe_pairs ind (i + 1) hsome.2 hts₂
    refine ⟨(mapEntryHead ind i ++ tk.describe env (ind + 8) ++ tv.describe env (ind + 8)) :: parts,
      ?_, ?_⟩
    · simp only [List.enumFrom_cons, List.mapM_cons, describeMapEntry, Mem.bind_apply,
        hrec _ _ _ hk, hrec _ _ _ hv, hparts, Mem.pure_apply]
    · simp only [List.flatten_cons, hflat, Pairs.ofList, Pairs.describe, List.append_assoc]

end

theorem item?_of_getItem {d : ItemData} {h' : Heap} (hg : getItem p h = .ok (d, h')) :
    h.item? p = some d ∧ h' = h := by
  unfold getItem at hg
  rcases hm : h.mem p with _ | ⟨_ | d'⟩ <;> rw [hm] at hg <;> cases hg
  exact ⟨item?_eq_some.mpr hm, rfl⟩

theorem readBuffer_keeps {handle : Option Nat} {length : Nat} :
    (readBuffer handle length).Keeps h := by
  intro bs h' hb
  unfold readBuffer at hb
  split at hb <;> cases hb
  rfl

/-- `_cbor_nested_describe` changes nothing on any heap, acyclic or not: the one count it
takes, on a tagged item, it gives back. -/
theorem cborNestedDescribe_keeps (env : DescribeEnv) :
    ∀ (f p ind : Nat), (cborNestedDescribe env f p ind).Keeps h
  | 0, _, _ => Mem.Keeps.throw _
  | f + 1, p, ind => by
    have ih := cborNestedDescribe_keeps env f
    rw [cborNestedDescribe]
    refine Mem.Keeps.bind (fun d h' hg => (item?_of_getItem hg).2) fun d hg => ?_
    have hd := (item?_of_getItem hg).1
    cases d with
    | uint n => exact Mem.Keeps.pure _
    | negint n => exact Mem.Keeps.pure _
    | str k data =>
      cases data with
      | definite handle length => exact readBuffer_keeps.bind fun _ _ => Mem.Keeps.pure _
      | indefinite chunks =>
        exact (Mem.Keeps.mapM fun c _ => ih c _).bind fun _ _ => Mem.Keeps.pure _
    | array dst items => exact (Mem.Keeps.mapM fun c _ => ih c _).bind fun _ _ => Mem.Keeps.pure _
    | map dst pairs =>
      refine (Mem.Keeps.mapM fun ⟨i, key, value⟩ _ => ?_).bind fun _ _ => Mem.Keeps.pure _
      refine (ih key _).bind fun _ _ => ?_
      cases value with
      | none => exact Mem.Keeps.throw _
      | some value => exact (ih value _).bind fun _ _ => Mem.Keeps.pure _
    | tag value item =>
      intro out h' ho
      dsimp only at ho
      rcases item with _ | c
      · simp [cborTagItem, Mem.bind_apply, getItem_eq hd] at ho
      rw [bind_congr_apply (cborTagItem_eq hd)] at ho
      rcases hc : h.item? c with _ | dc
      · rw [Mem.bind_error (by rw [cborIncref, Mem.bind_error (getItem_error hc)])] at ho
        cases ho
      rw [cborMove_cborIncref hc] at ho
      exact ((ih c _).bind fun _ _ => Mem.Keeps.pure _) out h' ho
    | floatCtrl fc => exact Mem.Keeps.pure _

/-- `_cbor_nested_describe` on a graph that unfolds writes the unfolding's description and
changes nothing. -/
theorem cborNestedDescribe_unfold (env : DescribeEnv) :
    ∀ (f : Nat) {p : Nat} {t : Item} (ind : Nat), h.unfold f p = some t →
      cborNestedDescribe env f p ind h = .ok (t.describe env ind, h)
  | 0, _, _, _, hu => by cases hu
  | f + 1, p, t, ind, hu => by
    have hrec := fun c tc ind (hc : h.unfold f c = some tc) =>
      cborNestedDescribe_unfold env f ind hc
    obtain ⟨d, ts, hd, hts, hn⟩ := item?_of_unfold hu
    rw [cborNestedDescribe, Mem.bind_ok (getItem_eq hd)]
    cases d with
    | uint n => cases hn; rfl
    | negint n => cases hn; rfl
    | str k data =>
      cases data with
      | definite handle length =>
        obtain ⟨bs, hbs, rfl⟩ := Option.map_eq_some'.mp hn
        simp only [Mem.bind_apply, readBuffer, hbs, Item.describe, Heap.bytesAt_length hbs]
        rfl
      | indefinite chunks =>
        obtain ⟨bss, hbss, rfl⟩ := Option.map_eq_some'.mp hn
        dsimp only [ItemData.children] at hts ⊢
        have hlen : chunks.length = bss.length := by
          rw [(unfoldAll_eq_some.mp hts).length_eq, eq_map_bytes_of_mapM hbss, List.length_map]
        rw [Mem.bind_ok (mapM_describe hrec hts _), eq_map_bytes_of_mapM hbss, hlen, List.map_map]
        rfl
    | array dst items =>
      cases hn
      dsimp only [ItemData.children] at hts ⊢
      have hlen := (unfoldAll_eq_some.mp hts).length_eq
      rw [Mem.bind_ok (mapM_describe hrec hts _)]
      simp only [Item.describe, Items.describe_ofList, Items.length_ofList, ← hlen]
      rfl
    | map dst pairs =>
      obtain ⟨hsome, rfl⟩ := node_map hn
      dsimp only [ItemData.children] at hts ⊢
      obtain ⟨parts, hparts, hflat⟩ := mapM_describe_pairs hrec ind 0 hsome hts
      have hlen : (Pairs.ofList ts).length = pairs.length := by
        rw [Pairs.length_ofList, ← (unfoldAll_eq_some.mp hts).length_eq,
          length_flatMap_pairs hsome]
        omega
      rw [List.enum, Mem.bind_ok hparts, Item.describe, hlen, hflat]
      rfl
    | tag value item =>
      obtain ⟨c, tc, rfl, rfl, rfl⟩ := node_tag hn
      obtain ⟨_, _, htc, -, heq⟩ := unfoldAll_cons_eq_some.mp hts
      cases heq
      obtain ⟨dc, hdc⟩ := Option.isSome_iff_exists.mp (isSome_item?_of_unfold htc)
      dsimp only
      rw [bind_congr_apply (cborTagItem_eq hd), cborMove_cborIncref hdc,
        Mem.bind_ok (hrec _ _ _ htc)]
      rfl
    | floatCtrl fc => cases hn; rfl

/-- On every acyclic, complete graph, `cbor_describe` returns without a fault, leaves contents
and counts as they were, and writes the description of the tree the item unfolds to. -/
theorem cborDescribe_tree (env : DescribeEnv) {h : Heap} {p : Nat} {t : Item}
    (hu : ∃ f, h.unfold f p = some t) : cborDescribe env p h = .ok (t.describe env 0, h) :=
  cborNestedDescribe_unfold env h.next 0 (unfold_next hu.choose_spec)

theorem cborDescribe_tree_sample :
    (∃ f, sampleHeap.unfold f 0 = some
      (.array false (.cons (.negint (.int8 5)) (.cons (.bytes .bytestring [7, 9]) .nil)))) ∧
    cborDescribe ⟨fun _ => "", fun _ => 0⟩ 0 sampleHeap = .ok (Item.describe ⟨fun _ => "", fun _ => 0⟩
      (.array false (.cons (.negint (.int8 5)) (.cons (.bytes .bytestring [7, 9]) .nil))) 0,
      sampleHeap) :=
  ⟨⟨2, rfl⟩, cborDescribe_tree _ ⟨2, rfl⟩⟩

example : Item.describe ⟨fun _ => "", fun _ => 0⟩
    (.array false (.cons (.negint (.int8 5)) (.cons (.bytes .bytestring [7, 9]) .nil))) 0 =
    text ("[CBOR_TYPE_ARRAY] Indefinite, Size: 2, Contents:\n" ++
      "    [CBOR_TYPE_NEGINT] Width: 1B, Value: -5 - 1\n" ++
      "    [CBOR_TYPE_BYTESTRING] Definite, Length: 2B, Data:\n" ++
      "        0709\n") := rfl

/-- `cbor_describe` never changes the heap: on every heap, cyclic and incomplete graphs
included, whenever it returns, contents and counts are as they were. -/
theorem cborDescribe_keeps (env : DescribeEnv) {h h' : Heap} {p : Nat} {out : List UInt8}
    (ho : cborDescribe env p h = .ok (out, h')) : h' = h :=
  cborNestedDescribe_keeps env h.next p 0 out h' ho

/-- An indefinite byte string whose one chunk is an integer: it does not unfold, yet the
printer describes it. -/
def oddChunkHeap : Heap :=
  .ofBlocks [.item (.str .bytestring (.indefinite [1])), .item (.uint (.int8 7))] fun _ => false

theorem cborDescribe_keeps_oddChunk :
    oddChunkHeap.unfold oddChunkHeap.next 0 = none ∧
    ∃ out h', cborDescribe ⟨fun _ => "", fun _ => 0⟩ 0 oddChunkHeap = .ok (out, h') ∧
      out = chunkedHead .bytestring 1 0 ++ describeUint (.int8 7) 4 ∧ h' = oddChunkHeap :=
  have hd : cborDescribe ⟨fun _ => "", fun _ => 0⟩ 0 oddChunkHeap =
      .ok (chunkedHead .bytestring 1 0 ++ describeUint (.int8 7) 4, oddChunkHeap) := rfl
  ⟨rfl, _, _, hd, rfl, cborDescribe_keeps _ hd⟩

/-- A copy prints as its source does: with an allocator that never fails, `cbor_copy` of an
acyclic, complete graph succeeds, and `cbor_describe` writes the same text for the copy as
for the source. -/
theorem cborDescribe_cborCopy (env : DescribeEnv) {h : Heap} {p : Nat} {t : Item}
    (hu : ∃ f, h.unfold f p = some t) (hnf : h.NoFail) :
    ∃ q h', cborCopy p h = .ok (some q, h') ∧ h.Adds h.next h' [q] ∧
      ∃ out, cborDescribe env p h = .ok (out, h) ∧ cborDescribe env q h' = .ok (out, h') := by
  have hr := cborCopyAux_outcome h.next (unfold_next hu.choose_spec) (Grows.refl h) le_rfl
  rcases hc : cborCopy p h with e | ⟨_ | q, h'⟩ <;> rw [cborCopy] at hc <;> rw [hc] at hr
  · exact absurd hnf hr.2.1
  · exact absurd hnf hr.2
  · exact ⟨q, h', rfl, hr.1, _, cborNestedDescribe_unfold env _ 0 (unfold_next hu.choose_spec),
      cborNestedDescribe_unfold env _ 0 (unfold_next hr.2)⟩

theorem cborDescribe_cborCopy_sample :
    (∃ f, sampleHeap.unfold f 0 = some
      (.array false (.cons (.negint (.int8 5)) (.cons (.bytes .bytestring [7, 9]) .nil)))) ∧
    sampleHeap.NoFail ∧
    ∃ q h', cborCopy 0 sampleHeap = .ok (some q, h') ∧ sampleHeap.Adds sampleHeap.next h' [q] ∧
      ∃ out,
      cborDescribe ⟨fun _ => "", fun _ => 0⟩ 0 sampleHeap = .ok (out, sampleHeap) ∧
      cborDescribe ⟨fun _ => "", fun _ => 0⟩ q h' = .ok (out, h') :=
  ⟨⟨2, rfl⟩, fun _ _ => rfl, cborDescribe_cborCopy _ ⟨2, rfl⟩ fun _ _ => rfl⟩

end Libcbor.DescribeCorrect
