import Libcbor.Unfold

/-! Ownership. An item owns the tree below it exclusively when every block of its
footprint is reached along one path only and every item there counts one reference.
`cbor_decref` of such an item frees exactly its footprint; of an item counted more than
once it only drops the count. -/
namespace Libcbor.Heap

variable {h h' h₁ h₂ : Heap} {p a : Nat} {d : ItemData} {F G : List Nat}

/-- Every block below `p` is reached once, and every item there counts one reference. -/
def Exclusive (h : Heap) (f p : Nat) : Prop :=
  (h.footprint f p).Nodup ∧ ∀ a ∈ h.footprint f p, (h.item? a).isSome → h.refcount a = 1

/-- `h'` is `h` with the blocks of `F` freed and nothing else changed. -/
structure Frees (h h' : Heap) (F : List Nat) : Prop where
  mem : ∀ a, h'.mem a = if a ∈ F then none else h.mem a
  refcount : ∀ a, h'.refcount a = if a ∈ F then 0 else h.refcount a
  next : h'.next = h.next
  calls : h'.calls = h.calls
  allocFails : h'.allocFails = h.allocFails

theorem Frees.refl (h : Heap) : h.Frees h [] := ⟨by simp, by simp, rfl, rfl, rfl⟩

theorem Frees.free (h : Heap) (p : Nat) : h.Frees (h.free p) [p] :=
  ⟨fun a => by by_cases e : a = p <;> simp [e], fun a => by by_cases e : a = p <;> simp [e],
    rfl, rfl, rfl⟩

theorem Frees.trans (h₁₂ : h.Frees h₁ F) (h₂₃ : h₁.Frees h₂ G) : h.Frees h₂ (F ++ G) where
  mem a := by
    rw [h₂₃.mem, h₁₂.mem]; by_cases hF : a ∈ F <;> by_cases hG : a ∈ G <;> simp [hF, hG]
  refcount a := by
    rw [h₂₃.refcount, h₁₂.refcount]; by_cases hF : a ∈ F <;> by_cases hG : a ∈ G <;> simp [hF, hG]
  next := h₂₃.next.trans h₁₂.next
  calls := h₂₃.calls.trans h₁₂.calls
  allocFails := h₂₃.allocFails.trans h₁₂.allocFails

theorem Frees.mem_of_not_mem (hf : h.Frees h' F) (ha : a ∉ F) : h'.mem a = h.mem a := by
  simp [hf.mem, ha]

theorem Frees.refcount_of_not_mem (hf : h.Frees h' F) (ha : a ∉ F) :
    h'.refcount a = h.refcount a := by
  simp [hf.refcount, ha]

theorem Frees.item?_of_not_mem (hf : h.Frees h' F) (ha : a ∉ F) : h'.item? a = h.item? a :=
  item?_congr (hf.mem_of_not_mem ha)

/-- Dropping the last count of `p` and, after its children, freeing `p` itself. -/
theorem Frees.setRefcount_free (hp : (h.mem p).isSome) (hG : (h.setRefcount p 0).Frees h' G)
    (hpG : p ∉ G) : h.Frees (h'.free p) (p :: G) where
  mem a := by
    by_cases e : a = p
    · subst e; simp
    · simp [e, hG.mem]
  refcount a := by
    by_cases e : a = p
    · subst e; simp
    · simp [e, hG.refcount, setRefcount_refcount _ (Option.get_mem hp)]
  next := by simp [hG.next]
  calls := by simp [hG.calls]
  allocFails := by simp [hG.allocFails]

end Libcbor.Heap

namespace Libcbor.Own

open Heap Ops

variable {h : Heap} {p c : Nat} {d : ItemData}

theorem getItem_eq (hd : h.item? p = some d) : getItem p h = .ok (d, h) := by
  simp [getItem, item?_eq_some.mp hd]

theorem getItem_error (hd : h.item? p = none) : getItem p h = .error .badItem := by
  unfold getItem; unfold item? at hd; split <;> simp_all

theorem setItem_apply (d : ItemData) :
    setItem p d h = .ok ((), h.modify p fun _ => .item d) := rfl

theorem cborFree_apply : cborFree p h = .ok ((), h.free p) := rfl

theorem cborIncref_eq (hd : h.item? p = some d) :
    cborIncref p h = .ok (p, h.setRefcount p (h.refcount p + 1)) := by
  simp [cborIncref, Mem.bind_apply, Mem.map_apply, getItem_eq hd]

theorem cborMove_eq (hd : h.item? p = some d) :
    cborMove p h = .ok (p, h.setRefcount p (h.refcount p - 1)) := by
  simp [cborMove, Mem.bind_apply, Mem.map_apply, getItem_eq hd]

/-- `cbor_decref` of an item counted more than once only drops the count. -/
theorem cborDecrefAux_shared {g : Nat} (hd : h.item? p = some d) (hrc : 2 ≤ h.refcount p) :
    cborDecrefAux (g + 1) p h = .ok ((), h.setRefcount p (h.refcount p - 1)) := by
  simp [cborDecrefAux, Mem.bind_apply, getItem_eq hd, show h.refcount p ≠ 0 by omega,
    show h.refcount p ≠ 1 by omega]

/-- Releasing a list of exclusively owned, pairwise disjoint trees frees their footprints. -/
theorem forM_frees {dec : Nat → Mem Unit} {f : Nat}
    (hdec : ∀ h c, h.live f c = true → h.Exclusive f c →
      ∃ h', dec c h = .ok ((), h') ∧ h.Frees h' (h.footprint f c)) :
    ∀ (cs : List Nat) (h : Heap), (∀ c ∈ cs, h.live f c = true) →
      (cs.flatMap (h.footprint f)).Nodup →
      (∀ a ∈ cs.flatMap (h.footprint f), (h.item? a).isSome → h.refcount a = 1) →
      ∃ h', cs.forM dec h = .ok ((), h') ∧ h.Frees h' (cs.flatMap (h.footprint f))
  | [], h, _, _, _ => ⟨h, rfl, by simpa using Frees.refl h⟩
  | c :: cs, h, hl, hnd, hrc => by
    simp only [List.flatMap_cons, List.nodup_append, List.mem_append] at hnd hrc
    obtain ⟨h₁, hc, hf₁⟩ := hdec h c (hl c (by simp)) ⟨hnd.1, fun a ha => hrc a (.inl ha)⟩
    have hout : ∀ a ∈ cs.flatMap (h.footprint f), a ∉ h.footprint f c :=
      fun a ha hac => hnd.2.2 hac ha
    have hframe : ∀ c' ∈ cs, ∀ a ∈ h.footprint f c', h₁.mem a = h.mem a := fun c' hc' a ha =>
      hf₁.mem_of_not_mem (hout a (List.mem_flatMap.mpr ⟨c', hc', ha⟩))
    have hfp : cs.flatMap (h₁.footprint f) = cs.flatMap (h.footprint f) :=
      List.flatMap_congr fun c' hc' => (unfold_congr (hframe c' hc')).2
    obtain ⟨h₂, hcs, hf₂⟩ := forM_frees hdec cs h₁
      (fun c' hc' => by rw [live_congr (hframe c' hc')]; exact hl c' (by simp [hc']))
      (hfp ▸ hnd.2.1)
      (fun a ha hs => by
        rw [hfp] at ha
        rw [hf₁.refcount_of_not_mem (hout a ha)]
        exact hrc a (.inr ha) (by rwa [hf₁.item?_of_not_mem (hout a ha)] at hs))
    refine ⟨h₂, ?_, ?_⟩
    · rw [List.forM_cons', Mem.bind_ok hc, hcs]
    · rw [List.flatMap_cons, ← hfp]; exact hf₁.trans hf₂

theorem cborDecrefAux_last {g : Nat} (hd : h.item? p = some d) (hrc : h.refcount p = 1) :
    cborDecrefAux (g + 1) p h =
      (do releaseData (cborDecrefAux g) d; cborFree p) (h.setRefcount p 0) := by
  simp [cborDecrefAux, Mem.bind_apply, getItem_eq hd, hrc]

theorem freeBuffer_frees (d : ItemData) (h : Heap) :
    ∃ h', freeBuffer d h = .ok ((), h') ∧ h.Frees h' d.buffer.toList := by
  unfold freeBuffer
  cases d.buffer with
  | none => exact ⟨h, rfl, Frees.refl h⟩
  | some b => exact ⟨h.free b, rfl, Frees.free h b⟩

/-- `cbor_decref` of an exclusively owned item frees exactly its footprint. -/
theorem cborDecrefAux_frees : ∀ {f g : Nat} {h : Heap} {p : Nat},
    h.live f p = true → f ≤ g → h.Exclusive f p →
    ∃ h', cborDecrefAux g p h = .ok ((), h') ∧ h.Frees h' (h.footprint f p)
  | 0, _, _, _, hl, _, _ => by simp [live] at hl
  | _ + 1, 0, _, _, _, hfg, _ => by omega
  | f + 1, g + 1, h, p, hl, hfg, ⟨hnd, hrc⟩ => by
    obtain ⟨d, hd, hlc⟩ := item?_of_live hl
    rw [footprint_succ_of_item hd] at hnd hrc ⊢
    have hp1 : h.refcount p = 1 := hrc p (by simp) (by simp [hd])
    simp only [List.nodup_cons, List.nodup_append, List.mem_append, List.mem_cons] at hnd hrc
    obtain ⟨hpG, hbuf, hch, hdis⟩ := hnd
    have hpmem := isSome_mem_of_item? hd
    obtain ⟨h₂, hb, hf₂⟩ := freeBuffer_frees d (h.setRefcount p 0)
    have hout : ∀ a ∈ d.children.flatMap (h.footprint f), a ≠ p ∧ a ∉ d.buffer.toList :=
      fun a ha => ⟨fun e => hpG (e ▸ .inr ha), fun hab => hdis hab ha⟩
    have hmem : ∀ a ∈ d.children.flatMap (h.footprint f), h₂.mem a = h.mem a := fun a ha => by
      rw [hf₂.mem_of_not_mem (hout a ha).2, setRefcount_mem]
    have hframe : ∀ c ∈ d.children, ∀ a ∈ h.footprint f c, h₂.mem a = h.mem a := fun c hc a ha =>
      hmem a (List.mem_flatMap.mpr ⟨c, hc, ha⟩)
    have hfp : d.children.flatMap (h₂.footprint f) = d.children.flatMap (h.footprint f) :=
      List.flatMap_congr fun c hc => (unfold_congr (hframe c hc)).2
    obtain ⟨h₃, hcs, hf₃⟩ := forM_frees
      (fun h c hl hx => cborDecrefAux_frees hl (Nat.le_of_succ_le_succ hfg) hx)
      d.children h₂
      (fun c hc => by rw [live_congr (hframe c hc)]; exact hlc c hc)
      (hfp ▸ hch)
      (fun a ha hs => by
        rw [hfp] at ha
        have hrc₂ : h₂.refcount a = h.refcount a := by
          rw [hf₂.refcount_of_not_mem (hout a ha).2,
            setRefcount_refcount _ (Option.get_mem hpmem), Function.update_noteq (hout a ha).1]
        rw [hrc₂]
        exact hrc a (.inr (.inr ha)) (by rwa [item?_congr (hmem a ha)] at hs))
    refine ⟨h₃.free p, ?_, ?_⟩
    · have hrel : releaseData (cborDecrefAux g) d (h.setRefcount p 0) = .ok ((), h₃) :=
        (Mem.bind_ok hb).trans hcs
      rw [cborDecrefAux_last hd hp1, Mem.bind_ok hrel]
      rfl
    · rw [← hfp]
      exact Frees.setRefcount_free hpmem (hf₂.trans hf₃) (by rw [hfp]; exact fun hm => hpG (List.mem_append.mp hm))

end Libcbor.Own
