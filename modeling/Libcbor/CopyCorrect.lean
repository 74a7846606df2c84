import Libcbor.CopyLoop

/-! `cbor_copy` copies. On a source graph that unfolds, every branch of the copy either
returns a fresh tree, owned by the caller alone, that unfolds to the same item, or returns
`NULL` with contents and counts as they were. The one fault left is a `NULL` handed to
`cbor_mark_negint`, which needs a negative integer below the source and a failing
allocator. -/
namespace Libcbor.CopyCorrect

open Heap Ops Unfold Own Copy CopySpec CopyLoop

variable {E : Fault → Prop} {h : Heap} {f p : Nat} {t : Item} {ts : List Item}

theorem bind_congr_apply {α β : Type} {x y : Mem α} (hxy : x h = y h) (k : α → Mem β) :
    (x >>= k) h = (y >>= k) h := by
  rw [Mem.bind_apply, Mem.bind_apply, hxy]

theorem cborTagItem_eq {v : UInt64} {c : Nat} (hd : h.item? p = some (.tag v (some c))) :
    cborTagItem p h = cborIncref c h := by
  simp [cborTagItem, Mem.bind_apply, getItem_eq hd]

theorem cborBuildTag_fails {value : UInt64} {c : Nat} (hx : h.allocFails h.calls = true) :
    cborBuildTag value c h = .ok (none, h.tick) := by
  simp [cborBuildTag, newItem, Mem.bind_apply, allocBlock_fails hx]

theorem cborBuildTag_ok {value : UInt64} {c : Nat} (hc : (h.item? c).isSome)
    (hx : h.allocFails h.calls = false) :
    cborBuildTag value c h = .ok (some h.next,
      ((h.alloc (.item (.tag value none)) 1).modify h.next fun _ => .item (.tag value (some c))
        ).setRefcount c (h.refcount c + 1)) := by
  obtain ⟨dc, hdc⟩ := Option.isSome_iff_exists.mp hc
  have hne : c ≠ h.next := Nat.ne_of_lt (lt_next_of_isSome (isSome_mem_of_item? hdc))
  have hdc' : (h.alloc (.item (.tag value none)) 1).item? c = some dc := by
    rw [item?_congr (show (h.alloc _ 1).mem c = h.mem c by simp [Function.update_noteq hne])]
    exact hdc
  simp [cborBuildTag, newItem, Mem.bind_apply, Mem.map_apply, allocBlock_ok hx, cborTagSetItem,
    getItem_eq item?_alloc_next, cborIncref_eq hdc', setItem_apply, modify_setRefcount,
    Function.update_noteq hne]

/-- The tag case: the copy of the tagged item is linked below a new tag. -/
theorem copyTag_outcome {copy : Nat → Mem (Option Nat)} {τ : Item → Item} {value : UInt64}
    {c : Nat} {tc : Item} (hd : h.item? p = some (.tag value (some c)))
    (htc : h.unfold f c = some tc) (hcopy : CopiesAll copy τ E f h [c]) (hf : f + 1 ≤ h.next) :
    CopyOutcome E (f + 1) h (.tag value (τ tc)) (copyTag copy p value h) := by
  obtain ⟨dc, hdc⟩ := Option.isSome_iff_exists.mp (isSome_item?_of_unfold htc)
  have hco := hcopy c (List.mem_singleton_self c) tc h htc (Grows.refl h)
  rw [copyTag, bind_congr_apply (cborTagItem_eq hd), cborMove_cborIncref hdc]
  rcases hc : copy c h with e | ⟨_ | c', h'⟩ <;> rw [hc] at hco
  · simpa [Mem.bind_apply, hc] using hco
  · simpa [Mem.bind_apply, hc] using hco
  obtain ⟨hA, htc'⟩ := hco
  obtain ⟨hA1, -⟩ := hA.succ htc'
  have hi' := isSome_item?_of_unfold htc'
  have hrc : h'.refcount c' = 1 :=
    hA.counted c' (by simpa using mem_footprint_of_unfold htc') hi'
  cases hx : h'.allocFails h'.calls
  · -- the tag is built over the copy: the copy is linked below it
    have hu₂ : (h'.alloc (.item (.tag value none)) 1).unfold f c' = some (τ tc) :=
      ((grows_alloc h' _ _).unfold htc').1
    obtain ⟨hL, hframe⟩ := Adds.link
      (hA1.trans (Adds.alloc_leaf (show (ItemData.tag value none).children = [] from rfl) rfl)).swap
      item?_alloc_next (fun n hn => ⟨τ tc, by simp only [List.mem_singleton] at hn; rwa [hn]⟩)
      (show (ItemData.tag value (some c')).children = (ItemData.tag value none).children ++ [c']
        from rfl) rfl
    have hne : h'.next ≠ c' :=
      Nat.ne_of_gt (lt_next_of_isSome (isSome_mem_of_item? (Option.get_mem hi')))
    have hiH : (((h'.alloc (.item (.tag value none)) 1).modify h'.next fun _ =>
        .item (.tag value (some c'))).item? c').isSome := by
      rw [item?_modify_ne hne, item?_congr (show (h'.alloc _ 1).mem c' = h'.mem c' by
        simp [Function.update_noteq hne.symm])]
      exact hi'
    have eH : (((h'.alloc (.item (.tag value none)) 1).modify h'.next fun _ =>
        .item (.tag value (some c'))).setRefcount c' 2).Alike
        (((h'.alloc (.item (.tag value none)) 1).modify h'.next fun _ =>
        .item (.tag value (some c'))).setRefcount c' (h'.refcount c' + 1)) := by
      rw [hrc]; exact Alike.refl _
    obtain ⟨h₄, hdec, e₄⟩ := cborDecref_adopted hiH
      (by simp [Function.update_noteq hne.symm, hrc]) eH
    simp only [Mem.bind_apply, hc, cborBuildTag_ok hi' hx, hdec, Mem.pure_apply]
    refine ⟨hL.alike e₄, ?_⟩
    rw [e₄.unfold]
    simp [unfold_succ, item?, ItemData.children, unfoldAll, hu₂, node, treeNode,
      (hframe c' (List.mem_singleton_self c')).1]
  · -- the tag cannot be allocated: release the copy
    obtain ⟨h₃, hdec, e₃⟩ := hA.release htc' (by omega) (alike_tick h')
    simp only [Mem.bind_apply, hc, cborBuildTag_fails hx, hdec, Mem.pure_apply]
    exact ⟨e₃, not_noFail_of_grows hA.toGrows (not_noFail_of_fails hx)⟩

/-- The array branch: `cbor_array_get` and `cbor_move` hand each entry to the copy with
its count as it was. -/
theorem cborCopyAux_array {dst : Dst} {items : List Nat}
    (hd : h.item? p = some (.array dst items)) (hts : unfoldAll (h.unfold f) items = some ts)
    (hcopy : CopiesAll (cborCopyAux f) id E f h items) (hf : f + 1 ≤ h.next) :
    CopyOutcome E (f + 1) h (.array dst.isDefinite (Items.ofList ts))
      (cborCopyAux (f + 1) p h) := by
  have hcopy' : CopiesAll (fun c => do cborCopyAux f (← cborMove (← cborIncref c))) id E f h
      items := fun c hc t h' htc hg => by
    obtain ⟨dc, hdc⟩ := Option.isSome_iff_exists.mp (isSome_item?_of_unfold (hg.unfold htc).1)
    dsimp only
    rw [cborMove_cborIncref hdc]
    exact hcopy c hc t h' htc hg
  rw [cborCopyAux, Mem.bind_ok (getItem_eq hd)]
  cases hx : h.allocFails h.calls
  · cases dst <;> simp only [cborNewDefiniteArray, cborNewIndefiniteArray, newItem,
      Mem.bind_apply, allocBlock_ok hx]
    · simpa only [List.map_id] using
        arrayFill rfl (fun _ e => by cases e; exact Nat.le_refl _) (fun _ _ => rfl) hts hcopy' hf
    · simpa only [List.map_id] using
        arrayFill rfl (fun _ e => by cases e) (fun _ _ => rfl) hts hcopy' hf
  · cases dst <;> simp only [cborNewDefiniteArray, cborNewIndefiniteArray, newItem,
      Mem.bind_apply, allocBlock_fails hx, Mem.pure_apply] <;> exact .of_fails hx

/-- The map branch. -/
theorem cborCopyAux_map {dst : Dst} {pairs : List (Nat × Option Nat)}
    (hd : h.item? p = some (.map dst pairs)) (hsome : pairs.all (·.2.isSome))
    (hts : unfoldAll (h.unfold f) (ItemData.map dst pairs).children = some ts)
    (hcopy : CopiesAll (cborCopyAux f) id E f h (ItemData.map dst pairs).children)
    (hf : f + 1 ≤ h.next) :
    CopyOutcome E (f + 1) h (.map dst.isDefinite (Pairs.ofList ts)) (cborCopyAux (f + 1) p h) := by
  rw [cborCopyAux, Mem.bind_ok (getItem_eq hd)]
  cases hx : h.allocFails h.calls
  · cases dst <;> simp only [cborNewDefiniteMap, cborNewIndefiniteMap, newItem,
      Mem.bind_apply, allocBlock_ok hx]
    · simpa only [List.map_id] using
        mapFill rfl (fun _ e => by cases e; exact Nat.le_refl _) (fun _ _ _ => rfl) hsome hts hcopy hf
    · simpa only [List.map_id] using
        mapFill rfl (fun _ e => by cases e) (fun _ _ _ => rfl) hsome hts hcopy hf
  · cases dst <;> simp only [cborNewDefiniteMap, cborNewIndefiniteMap, newItem,
      Mem.bind_apply, allocBlock_fails hx, Mem.pure_apply] <;> exact .of_fails hx

/-- The chunked string branch. -/
theorem cborCopyAux_chunks {k : StringKind} {chunks : List Nat}
    (hd : h.item? p = some (.str k (.indefinite chunks)))
    (hts : unfoldAll (h.unfold f) chunks = some ts)
    (hn : Heap.treeNode (.str k (.indefinite chunks)) ts = some t)
    (hcopy : CopiesAll (cborCopyAux f) id E f h chunks) (hf : f + 1 ≤ h.next) :
    CopyOutcome E (f + 1) h t (cborCopyAux (f + 1) p h) := by
  obtain ⟨bss, hbss, rfl⟩ := Option.map_eq_some'.mp hn
  have hpre : ∀ (h : Heap) cs ts', ts' <+: ts →
      ∃ t, h.node (.str k (.indefinite cs)) ts' = some t := by
    rintro h cs ts' ⟨rest, rfl⟩
    simp only [List.mapM_append, Option.bind_eq_bind, Option.bind_eq_some] at hbss
    obtain ⟨bs, hbs, -⟩ := hbss
    exact ⟨.chunked k bs, by simp only [node, treeNode, hbs, Option.map_some']⟩
  rw [cborCopyAux, Mem.bind_ok (getItem_eq hd)]
  cases hx : h.allocFails h.calls
  · simp only [newIndefiniteStr, newItem, Mem.bind_apply, allocBlock_ok hx]
    exact (copyEach_fill (addChunk_spec k chunks.length) (fun _ _ => rfl) (fun _ => ⟨rfl, rfl⟩)
      hpre hf chunks ts
      (h.alloc (.item (.str k (.indefinite []))) 1) [] [] hcopy hts (by simp)
      (Adds.alloc_leaf rfl rfl) item?_alloc_next rfl (by simp)).copyOutcome
      (by rintro d ⟨cs, rfl⟩ h; simp only [node, treeNode, hbss, Option.map_some'])
  · simp only [newIndefiniteStr, newItem, Mem.bind_apply, allocBlock_fails hx, Mem.pure_apply]
    exact .of_fails hx

/-- Every run of `cbor_copy` below `f` levels, from a heap grown from the source's: on a
source that unfolds it copies or leaves nothing behind, and it faults only when the
allocator fails and a negative integer lies below the source. -/
theorem cborCopyAux_outcome : ∀ (f : Nat) {h₀ h : Heap} {p : Nat} {t : Item},
    h₀.unfold f p = some t → h₀.Grows h → f ≤ h.next →
    CopyOutcome (fun e => e = .nullItem ∧ ¬ h₀.NoFail ∧ ¬ h₀.NoNegint f p) f h t
      (cborCopyAux f p h)
  | 0, _, _, _, _, hu, _, _ => by simp [unfold] at hu
  | f + 1, h₀, h, p, t, hu, hg, hf => by
    obtain ⟨d, ts, hd₀, hts₀, -, hd, hts, hn⟩ := hg.node_of_unfold hu
    have hcopy : CopiesAll (cborCopyAux f) id
        (fun e => e = .nullItem ∧ ¬ h₀.NoFail ∧ ¬ h₀.NoNegint (f + 1) p) f h
        d.children := fun c hc t' h' htc hg' => by
      obtain ⟨tc, htc₀⟩ := exists_of_unfoldAll hts₀ hc
      rw [(hg.unfold htc₀).1] at htc
      cases htc
      exact (cborCopyAux_outcome f htc₀ (hg.trans hg') (by have := hg'.next_le; omega)).mono
        fun _ ⟨he, hnf, hnn⟩ => ⟨he, hnf, fun hall => hnn fun a ha => hall a
          (footprint_child_subset hd₀ hc ha)⟩
    have hf' : f + 1 ≤ h.next := hf
    cases d with
    | uint n =>
      cases hn
      rw [cborCopyAux, Mem.bind_ok (getItem_eq hd)]
      exact cborCopyInt_uint hd
    | negint n =>
      cases hn
      rw [cborCopyAux, Mem.bind_ok (getItem_eq hd)]
      exact (cborCopyInt_negint hd).mono fun _ ⟨he, hnf⟩ => ⟨he, not_noFail_of_grows hg hnf,
        fun hall => hall p mem_footprint_self n hd₀⟩
    | str k s =>
      cases s with
      | definite handle length =>
        obtain ⟨bs, hbs, rfl⟩ := Option.map_eq_some'.mp hn
        rw [cborCopyAux, Mem.bind_ok (getItem_eq hd)]
        exact buildStr_outcome hbs
      | indefinite chunks => exact cborCopyAux_chunks hd hts hn hcopy hf'
    | array dst items =>
      cases hn
      exact cborCopyAux_array hd hts hcopy hf'
    | map dst pairs =>
      obtain ⟨hsome, rfl⟩ := node_map hn
      exact cborCopyAux_map hd hsome hts hcopy hf'
    | tag value item =>
      obtain ⟨c, tc, rfl, rfl, rfl⟩ := node_tag hn
      obtain ⟨_, _, htc, -, e⟩ := unfoldAll_cons_eq_some.mp hts
      cases e
      rw [cborCopyAux, Mem.bind_ok (getItem_eq hd)]
      exact copyTag_outcome hd htc hcopy hf'
    | floatCtrl v =>
      cases hn
      rw [cborCopyAux, Mem.bind_ok (getItem_eq hd)]
      exact cborCopyFloatCtrl_outcome hd

/-- `cbor_copy` of an item starts with at least one level of fuel. -/
theorem cborCopy_eq_aux {d : ItemData} (hd : h.item? p = some d) :
    ∃ g, cborCopy p h = cborCopyAux (g + 1) p h :=
  ⟨h.next - 1, by
    rw [cborCopy, Nat.sub_add_cancel (Nat.one_le_of_lt (lt_next_of_isSome (isSome_mem_of_item? hd)))]⟩

/-- One negative integer, and an allocator that fails from its first call on. -/
def negintHeap : Heap := .ofBlocks [.item (.negint (.int8 5))] fun _ => true

/-- `cbor_copy` of an acyclic, complete item graph, under any allocator failure schedule: a
fresh tree owned by the caller alone that unfolds to the source's tree, or `NULL` with
contents and counts as they were after a failed allocation, or a `NULL` handed to an item
operation, which needs a failed allocation and a negative integer below the source. -/
theorem cborCopy_outcome {h : Heap} {p : Nat} {t : Item} (hu : ∃ f, h.unfold f p = some t) :
    CopyOutcome (fun e => e = .nullItem ∧ ¬ h.NoFail ∧ ¬ h.NoNegint h.next p) h.next h t
      (cborCopy p h) := by
  obtain ⟨f, hf⟩ := hu
  exact cborCopyAux_outcome h.next (unfold_next hf) (Grows.refl h) le_rfl

theorem cborCopy_outcome_negint :
    (∃ f, negintHeap.unfold f 0 = some (.negint (.int8 5))) ∧
    CopyOutcome (fun e => e = .nullItem ∧ ¬ negintHeap.NoFail ∧
        ¬ negintHeap.NoNegint negintHeap.next 0)
      negintHeap.next negintHeap (.negint (.int8 5)) (cborCopy 0 negintHeap) :=
  ⟨⟨1, rfl⟩, cborCopy_outcome ⟨1, rfl⟩⟩

/-- With an allocator that never fails, `cbor_copy` of an acyclic, complete item graph
returns a fresh tree, owned by the caller alone and sharing no block with the source, that
unfolds to the same tree: every chunk, element, pair and child is copied. -/
theorem cborCopy_unfold {h : Heap} {p : Nat} {t : Item} (hu : ∃ f, h.unfold f p = some t)
    (hnf : h.NoFail) : ∃ q h', cborCopy p h = .ok (some q, h') ∧ h.Adds h.next h' [q] ∧
      h'.unfold h.next q = some t := by
  have hr := cborCopyAux_outcome h.next (unfold_next hu.choose_spec) (Grows.refl h) le_rfl
  rcases hc : cborCopy p h with e | ⟨_ | q, h'⟩ <;> rw [cborCopy] at hc <;> rw [hc] at hr
  · exact absurd hnf hr.2.1
  · exact absurd hnf hr.2
  · exact ⟨q, h', rfl, hr⟩

/-- An indefinite array holding a negative integer and a definite byte string. -/
def sampleHeap : Heap :=
  .ofBlocks [.item (.array .indefinite [1, 2]), .item (.negint (.int8 5)),
    .item (.str .bytestring (.definite (some 3) 2)), .bytes [7, 9]] fun _ => false

theorem cborCopy_unfold_sample :
    (∃ f, sampleHeap.unfold f 0 = some
      (.array false (.cons (.negint (.int8 5)) (.cons (.bytes .bytestring [7, 9]) .nil)))) ∧
    sampleHeap.NoFail ∧
    ∃ q h', cborCopy 0 sampleHeap = .ok (some q, h') ∧ sampleHeap.Adds sampleHeap.next h' [q] ∧
      h'.unfold sampleHeap.next q = some
        (.array false (.cons (.negint (.int8 5)) (.cons (.bytes .bytestring [7, 9]) .nil))) :=
  ⟨⟨2, rfl⟩, fun _ _ => rfl, cborCopy_unfold ⟨2, rfl⟩ fun _ _ => rfl⟩

theorem cborCopy_negint_null : cborCopy 0 negintHeap = .error .nullItem := rfl

end Libcbor.CopyCorrect
