import Libcbor.CopySpec

/-! The loops of `cbor_copy` that fill a fresh container: the chunk and array loop
`copyEach` and the map loop `copyPairs`. Each round copies the next entries, pushes the
copies and drops the local references; a failed round releases what the loop built.
Either way the container is one fresh tree, or the heap is back where the loop started. -/
namespace Libcbor.Heap

open Ops Unfold

variable {f res : Nat} {h₀ h : Heap} {t : Item} {ts : List Item}

/-- A fresh container whose entries unfold is released by `cbor_decref`, also after the
bookkeeping moved; a loop that gives up this way ends having changed nothing. -/
theorem Adds.abandon {d : ItemData} {h' : Heap} (hA : h₀.Adds (f + 1) h [res])
    (hd : h.item? res = some d) (hts : unfoldAll (h.unfold f) d.children = some ts)
    (hnode : ∃ t, h.node d ts = some t) (hf : f + 1 ≤ h₀.next) (e : h.Alike h') :
    ∃ h'', cborDecref res h' = .ok ((), h'') ∧ h₀.Alike h'' := by
  obtain ⟨t, ht⟩ := hnode
  exact hA.release (by simp [unfold_succ, hd, hts, ht] : h.unfold (f + 1) res = some t) hf e

/-- A copy that succeeded at `f` levels is a fresh tree at `f + 1` levels too. -/
theorem Adds.succ {q : Nat} {h' : Heap} (ha : h.Adds f h' [q])
    (hu : h'.unfold f q = some t) : h.Adds (f + 1) h' [q] ∧ h'.unfold (f + 1) q = some t :=
  ⟨ha.mono (by simpa using ⟨t, hu⟩) (Nat.le_succ f), (unfold_mono hu (Nat.le_succ f)).1⟩

end Libcbor.Heap

namespace Libcbor.CopyLoop

open Heap Ops Unfold Own Copy CopySpec

/-- `copy` copies each of `cs` below `f` levels, from any heap grown from `h`, to a tree
that unfolds to `τ` of the source's. -/
def CopiesAll (copy : Nat → Mem (Option Nat)) (τ : Item → Item) (E : Fault → Prop) (f : Nat)
    (h : Heap) (cs : List Nat) : Prop :=
  ∀ c ∈ cs, ∀ t h', h.unfold f c = some t → h.Grows h' → CopyOutcome E f h' (τ t) (copy c h')

/-- What a loop filling the fresh container `res` may end in: the container, of a shape
`shape`, with entries denoting `ts`, nothing left behind, or a fault `E` allows. -/
def FillOutcome (E : Fault → Prop) (f : Nat) (h₀ : Heap) (res : Nat) (shape : ItemData → Prop)
    (ts : List Item) : Except Fault (Option Nat × Heap) → Prop
  | .ok (some q, h') => q = res ∧ h₀.Adds (f + 1) h' [res] ∧
      ∃ d, shape d ∧ h'.item? res = some d ∧ unfoldAll (h'.unfold f) d.children = some ts
  | .ok (none, h') => h₀.Alike h' ∧ ¬ h₀.NoFail
  | .error e => E e

variable {E : Fault → Prop} {f : Nat} {h₀ h : Heap} {res : Nat} {t : Item} {ts : List Item}
  {shape : ItemData → Prop} {τ : Item → Item}

theorem FillOutcome.copyOutcome {r : Except Fault (Option Nat × Heap)}
    (hr : FillOutcome E f h₀ res shape ts r)
    (hnode : ∀ d, shape d → ∀ h : Heap, h.node d ts = some t) : CopyOutcome E (f + 1) h₀ t r := by
  rcases r with e | ⟨_ | q, h'⟩
  · exact hr
  · exact hr
  · obtain ⟨rfl, hA, d, hs, hd, hts⟩ := hr
    exact ⟨hA, by simp [unfold_succ, hd, hts, hnode d hs]⟩

/-- `cbor_decref` of an entry the container has adopted only drops the local count. -/
theorem cborDecref_adopted {c : Nat} {H h' : Heap} (hi : (H.item? c).isSome)
    (hrc : H.refcount c = 1) (e : (H.setRefcount c 2).Alike h') :
    ∃ h'', cborDecref c h' = .ok ((), h'') ∧ H.Alike h'' := by
  obtain ⟨dc, hdc⟩ := Option.isSome_iff_exists.mp hi
  have hc := isSome_mem_of_item? hdc
  have hdc' : h'.item? c = some dc := (item?_congr (congrFun e.mem c)).trans
    ((item?_congr (congrFun (setRefcount_mem _ _ _) c)).trans hdc)
  have hrc' : h'.refcount c = 2 := by
    rw [congrFun e.refcount c, setRefcount_refcount_apply]; simp [hc]
  obtain ⟨g, hg⟩ : ∃ g, h'.next = g + 1 :=
    ⟨h'.next - 1, by have := lt_next_of_isSome (isSome_mem_of_item? hdc'); omega⟩
  refine ⟨h'.setRefcount c 1, ?_, ?_⟩
  · show cborDecrefAux h'.next c h' = _
    rw [hg, cborDecrefAux_shared hdc' (by omega), hrc']
  · have : ((H.setRefcount c 2).setRefcount c 1).Alike (h'.setRefcount c 1) := e.setRefcount
    rwa [setRefcount_setRefcount, setRefcount_eq_self hrc] at this

section Each

variable {copy : Nat → Mem (Option Nat)} {push : Nat → Nat → Mem Bool}
  {refused : Nat → Mem (Option Nat)} {grow : List Nat → ItemData} {cap : Nat} {R : Prop}
  {tsAll : List Item}

/-- The chunk and array loops, from any round on: given the container built so far, they
end in the full container or in the heap they started from. A push is refused only where
`R` holds, and then the loop releases what it built, as `cbor_copy` does. -/
theorem copyEach_fill (hpush : PushSpec push grow cap R)
    (hrefused : R → ∀ e, refused e = releaseEntry res e)
    (hgrow : ∀ cs, (grow cs).children = cs ∧ (grow cs).buffer = none)
    (hnode : ∀ (h : Heap) cs ts, ts <+: tsAll → ∃ t, h.node (grow cs) ts = some t)
    (hf : f + 1 ≤ h₀.next) :
    ∀ (rest : List Nat) (tsRest : List Item) (h : Heap) (cs : List Nat) (ts : List Item),
      CopiesAll copy τ E f h₀ rest → unfoldAll (h₀.unfold f) rest = some tsRest →
      ts ++ tsRest.map τ = tsAll → h₀.Adds (f + 1) h [res] → h.item? res = some (grow cs) →
      unfoldAll (h.unfold f) cs = some ts → cs.length + rest.length ≤ cap →
      FillOutcome E f h₀ res (fun d => ∃ cs, d = grow cs) tsAll
        (copyEach copy push refused res rest h)
  | [], tsRest, h, cs, ts, _, hrest, hall, hA, hd, hts, _ => by
    simp only [unfoldAll, Option.some.injEq] at hrest
    subst hrest hall
    refine ⟨rfl, hA, grow cs, ⟨cs, rfl⟩, hd, ?_⟩
    rw [(hgrow cs).1, List.map_nil, List.append_nil]
    exact hts
  | c :: rest, tsRest, h, cs, ts, hcopy, hrest, hall, hA, hd, hts, hcap => by
    obtain ⟨tc, tsRest', htc, hrest', rfl⟩ := unfoldAll_cons_eq_some.mp hrest
    have hts' : unfoldAll (h.unfold f) (grow cs).children = some ts := by
      rw [(hgrow cs).1]; exact hts
    have hnd : ∃ t, h.node (grow cs) ts = some t := hnode h cs ts ⟨_, hall⟩
    have hco := hcopy c (List.mem_cons_self c rest) tc h htc hA.toGrows
    rcases hc : copy c h with e | ⟨_ | c', h'⟩ <;> rw [hc] at hco
    · simpa only [copyEach, Mem.bind_apply, hc] using hco
    · -- the entry's copy failed: release the container
      obtain ⟨e, hnf⟩ := hco
      obtain ⟨h'', hdec, e''⟩ := hA.abandon hd hts' hnd hf e
      simp only [copyEach, Mem.bind_apply, hc, hdec, Mem.pure_apply]
      exact ⟨e'', not_noFail_of_grows hA.toGrows hnf⟩
    · obtain ⟨hA', htc'⟩ := hco
      have hres_lt : res < h.next := hA.lt_next (by simpa using mem_footprint_self)
      have hc'_ge : h.next ≤ c' := hA'.fresh c' (by simpa using mem_footprint_of_unfold htc')
      have hne : res ≠ c' := by omega
      have hd' : h'.item? res = some (grow cs) := (item?_congr (hA'.old res hres_lt).1).trans hd
      have hi' : (h'.item? c').isSome := isSome_item?_of_unfold htc'
      have hrc : h'.refcount c' = 1 :=
        hA'.counted c' (by simpa using mem_footprint_of_unfold htc') hi'
      have hlt : cs.length < cap := by simp only [List.length_cons] at hcap; omega
      rcases hpush h' res c' cs hd' hi' hne hlt with ⟨h'', ⟨hp, e⟩ | ⟨hR, hp, e, hx⟩⟩
      · -- the container adopted the copy: drop the local reference and go on
        rw [hrc] at e
        have hi'' : ((h'.modify res fun _ => .item (grow (cs ++ [c']))).item? c').isSome := by
          rwa [item?_modify_ne hne]
        obtain ⟨h₃, hdec, e₃⟩ := cborDecref_adopted hi'' hrc e
        obtain ⟨hA₃, hd₃, hts₃⟩ := Adds.append hA hd hts' hA'
          (by simp [unfoldAll, htc'] : unfoldAll (h'.unfold f) [c'] = some [τ tc])
          (by rw [(hgrow _).1, (hgrow _).1]) (by rw [(hgrow _).2, (hgrow _).2]) e₃
        have ih := copyEach_fill hpush hrefused hgrow hnode hf rest tsRest' h₃ (cs ++ [c'])
          (ts ++ [τ tc])
          (fun c hc => hcopy c (List.mem_cons_of_mem _ hc)) hrest' (by simpa using hall) hA₃ hd₃
          (by rwa [(hgrow _).1] at hts₃) (by simp only [List.length_append,
            List.length_cons, List.length_nil] at hcap ⊢; omega)
        simp only [copyEach, Mem.bind_apply, hc, hp, hdec, if_true]
        exact ih
      · -- the push failed: release the copy, then the container
        obtain ⟨h₃, hdec₃, e₃⟩ := hA'.release htc' (by have := hA.next_le; omega) e
        obtain ⟨h₄, hdec₄, e₄⟩ := hA.abandon hd hts' hnd hf e₃
        simp only [copyEach, Mem.bind_apply, hc, hp, Bool.false_eq_true, if_false,
          hrefused hR, releaseEntry, hdec₃, hdec₄, Mem.pure_apply]
        exact ⟨e₄, not_noFail_of_grows (hA.toGrows.trans hA'.toGrows) (not_noFail_of_fails hx)⟩

end Each

section Pairs

variable {copy : Nat → Mem (Option Nat)} {refused : Nat → Nat → Mem (Option Nat)} {dst : Dst}
  {cap : Nat} {tsAll : List Item}

/-- The map loops, from any round on; only an indefinite map refuses a pair. -/
theorem copyPairs_fill (hcap : ∀ n, dst = .definite n → cap ≤ n)
    (hrefused : dst = .indefinite → ∀ k v, refused k v = releasePair res k v)
    (hf : f + 1 ≤ h₀.next) :
    ∀ (rest : List (Nat × Option Nat)) (tsRest : List Item) (h : Heap)
      (ps : List (Nat × Option Nat)) (ts : List Item),
      CopiesAll copy τ E f h₀ (ItemData.map dst rest).children → rest.all (·.2.isSome) → unfoldAll (h₀.unfold f) (ItemData.map dst rest).children = some tsRest →
      ts ++ tsRest.map τ = tsAll → h₀.Adds (f + 1) h [res] → h.item? res = some (.map dst ps) →
      ps.all (·.2.isSome) → unfoldAll (h.unfold f) (ItemData.map dst ps).children = some ts →
      ps.length + rest.length ≤ cap →
      FillOutcome E f h₀ res (fun d => ∃ ps, d = .map dst ps ∧ ps.all (·.2.isSome)) tsAll
        (copyPairs copy refused res rest h)
  | [], tsRest, h, ps, ts, _, _, hrest, hall, hA, hd, hps, hts, _ => by
    simp only [ItemData.children, List.flatMap_nil, unfoldAll, Option.some.injEq] at hrest
    subst hrest hall
    refine ⟨rfl, hA, .map dst ps, ⟨ps, rfl, hps⟩, hd, ?_⟩
    rw [List.map_nil, List.append_nil]
    exact hts
  | (k, ov) :: rest, tsRest, h, ps, ts, hcopy, hsome, hrest, hall, hA, hd, hps, hts, hlen => by
    simp only [List.all_cons, Bool.and_eq_true] at hsome
    obtain ⟨v, rfl⟩ := Option.isSome_iff_exists.mp hsome.1
    simp only [ItemData.children, List.flatMap_cons, Option.toList_some, List.cons_append,
      List.nil_append] at hrest hcopy
    obtain ⟨tk, tsRest₁, htk, hrest₁, rfl⟩ := unfoldAll_cons_eq_some.mp hrest
    obtain ⟨tv, tsRest', htv, hrest', rfl⟩ := unfoldAll_cons_eq_some.mp hrest₁
    have hnd : ∃ t, h.node (.map dst ps) ts = some t :=
      ⟨.map dst.isDefinite (Pairs.ofList ts), by simp [node, treeNode, hps]⟩
    have hres : ∃ t, h.unfold (f + 1) res = some t := by
      obtain ⟨t, ht⟩ := hnd
      exact ⟨t, by simp [unfold_succ, hd, hts, ht]⟩
    obtain ⟨tres, htres⟩ := hres
    have hres_lt : res < h.next := hA.lt_next (by simpa using mem_footprint_self)
    have hco := hcopy k (by simp) tk h htk hA.toGrows
    rcases hck : copy k h with e | ⟨_ | k', h'⟩ <;> rw [hck] at hco
    · simpa only [copyPairs, Mem.bind_apply, hck] using hco
    · -- the key's copy failed: release the container
      obtain ⟨e, hnf⟩ := hco
      obtain ⟨h'', hdec, e''⟩ := hA.abandon hd hts hnd hf e
      simp only [copyPairs, Mem.bind_apply, hck, hdec, Mem.pure_apply]
      exact ⟨e'', not_noFail_of_grows hA.toGrows hnf⟩
    obtain ⟨hAk, htk'⟩ := hco
    obtain ⟨hAk1, htk1⟩ := hAk.succ htk'
    have hk_ge : h.next ≤ k' := hAk.fresh k' (by simpa using mem_footprint_of_unfold htk')
    have hk_lt : k' < h'.next := hAk.lt_next (by simpa using mem_footprint_of_unfold htk')
    have hcov := hcopy v (by simp) tv h' htv (hA.toGrows.trans hAk.toGrows)
    rcases hcv : copy v h' with e | ⟨_ | v', h''⟩ <;> rw [hcv] at hcov
    · simpa only [copyPairs, copyNonNull, Mem.bind_apply, hck, hcv] using hcov
    · -- the value's copy failed: release the container, then the key's copy
      obtain ⟨e, hnf⟩ := hcov
      obtain ⟨h₃, hdec₃, hA₃, hfr₃, -⟩ := ((hA.trans hAk1).alike e).decref_cons
        (live_of_unfold ((hAk.toGrows.trans e.grows).unfold htres).1) (hf.trans (hA.next_le.trans
          (hAk.next_le.trans e.next_le)))
      obtain ⟨h₄, hdec₄, e₄⟩ := hA₃.decref
        ((unfold_congr (hfr₃ k' (by simp))).1.trans (e.unfold.trans htk1))
        (hf.trans hA₃.next_le)
      simp only [copyPairs, copyNonNull, Mem.bind_apply, hck, hcv, hdec₃, hdec₄, Mem.pure_apply]
      exact ⟨e₄, not_noFail_of_grows (hA.toGrows.trans hAk.toGrows) hnf⟩
    obtain ⟨hAv, htv'⟩ := hcov
    obtain ⟨hAv1, htv1⟩ := hAv.succ htv'
    have hv_ge : h'.next ≤ v' := hAv.fresh v' (by simpa using mem_footprint_of_unfold htv')
    have hg : h.Grows h'' := hAk.toGrows.trans hAv.toGrows
    have hd'' : h''.item? res = some (.map dst ps) := (item?_congr (hg.old res hres_lt).1).trans hd
    have hik : (h''.item? k').isSome := by
      rw [item?_congr (hAv.old k' hk_lt).1]; exact isSome_item?_of_unfold htk'
    have hiv : (h''.item? v').isSome := isSome_item?_of_unfold htv'
    have hrk : h''.refcount k' = 1 := by
      rw [(hAv.old k' hk_lt).2]
      exact hAk.counted k' (by simpa using mem_footprint_of_unfold htk')
        (isSome_item?_of_unfold htk')
    have hrv : h''.refcount v' = 1 :=
      hAv.counted v' (by simpa using mem_footprint_of_unfold htv') hiv
    have hne₁ : res ≠ k' := by omega
    have hne₂ : res ≠ v' := by have := hAk.next_le; omega
    have hne₃ : k' ≠ v' := by omega
    have hlt : ps.length < cap := by simp only [List.length_cons] at hlen; omega
    rcases cborMapAdd_spec hcap hd'' hik hiv hne₁ hne₂ hne₃ hlt with
      ⟨h₃, ⟨hp, e⟩ | ⟨hR, hp, e, hx⟩⟩
    · -- the map adopted both copies: drop the local references and go on
      rw [hrk, hrv, setRefcount_comm _ _ hne₃] at e
      have hik' : (((h''.modify res fun _ => .item (.map dst (ps ++ [(k', some v')]))).setRefcount
          v' 2).item? k').isSome := by
        rwa [item?_congr (congrFun (setRefcount_mem _ _ _) k'), item?_modify_ne hne₁]
      have hrk' : ((h''.modify res fun _ => .item (.map dst (ps ++ [(k', some v')]))).setRefcount
          v' 2).refcount k' = 1 := by
        rw [setRefcount_refcount_apply]; simp [hne₃, hrk]
      obtain ⟨h₄, hdec₄, e₄⟩ := cborDecref_adopted hik' hrk' e
      have hiv' : ((h''.modify res fun _ => .item (.map dst (ps ++ [(k', some v')]))).item?
          v').isSome := by rwa [item?_modify_ne hne₂]
      obtain ⟨h₅, hdec₅, e₅⟩ := cborDecref_adopted hiv' hrv e₄
      obtain ⟨hA₅, hd₅, hts₅⟩ := Adds.append hA hd hts (hAk.trans hAv)
        (by simp [unfoldAll, htv', (hAv.toGrows.unfold htk').1] :
          unfoldAll (h''.unfold f) [k', v'] = some [τ tk, τ tv])
        (by simp [ItemData.children]) (by rfl) e₅
      have ih := copyPairs_fill hcap hrefused hf rest tsRest' h₅ (ps ++ [(k', some v')])
        (ts ++ [τ tk, τ tv])
        (fun c hc => hcopy c (List.mem_cons_of_mem _ (List.mem_cons_of_mem _ hc))) hsome.2 hrest' (by simpa using hall) hA₅ hd₅
        (by simpa using hps) hts₅ (by simp only [List.length_append, List.length_cons,
          List.length_nil] at hlen ⊢; omega)
      simp only [copyPairs, copyNonNull, Mem.bind_apply, hck, hcv, hp, hdec₄, hdec₅, if_true]
      exact ih
    · -- the map refused the pair: release the container and both copies
      have hA₃ : h₀.Adds (f + 1) h₃ [res, k', v'] := ((hA.trans hAk1).trans hAv1).alike e
      obtain ⟨h₄, hdec₄, hA₄, hfr₄, -⟩ := hA₃.decref_cons
        (live_of_unfold ((hg.trans e.grows).unfold htres).1) (hf.trans hA₃.next_le)
      have htk₄ : h₄.unfold (f + 1) k' = some (τ tk) := (unfold_congr (hfr₄ k' (by simp))).1.trans
        (e.unfold.trans ((hAv.toGrows.unfold htk1).1))
      obtain ⟨h₅, hdec₅, hA₅, hfr₅, -⟩ := hA₄.decref_cons (live_of_unfold htk₄)
        (hf.trans hA₄.next_le)
      obtain ⟨h₆, hdec₆, e₆⟩ := hA₅.decref ((unfold_congr (hfr₅ v' (by simp))).1.trans
        ((unfold_congr (hfr₄ v' (by simp))).1.trans (e.unfold.trans htv1))) (hf.trans hA₅.next_le)
      simp only [copyPairs, copyNonNull, Mem.bind_apply, hck, hcv, hp, Bool.false_eq_true,
        if_false, hrefused hR, releasePair, hdec₄, hdec₅, hdec₆, Mem.pure_apply]
      exact ⟨e₆, not_noFail_of_grows (hA.toGrows.trans hg) (not_noFail_of_fails hx)⟩

end Pairs

/-- The array loop, from a fresh empty array of either kind; only an indefinite array
refuses, and then the loop releases what it built. -/
theorem arrayFill {copy : Nat → Mem (Option Nat)} {refused : Nat → Mem (Option Nat)} {dst : Dst}
    {items : List Nat} {b : Bool} (hdef : dst.isDefinite = b)
    (hcap : ∀ n, dst = .definite n → items.length ≤ n)
    (hrefused : dst = .indefinite → ∀ e, refused e = releaseEntry h.next e)
    (hts : unfoldAll (h.unfold f) items = some ts) (hcopy : CopiesAll copy τ E f h items)
    (hf : f + 1 ≤ h.next) :
    CopyOutcome E (f + 1) h (.array b (Items.ofList (ts.map τ)))
      (copyEach copy cborArrayPush refused h.next items (h.alloc (.item (.array dst [])) 1)) :=
  (copyEach_fill (cborArrayPush_spec dst items.length hcap) hrefused (fun _ => ⟨rfl, rfl⟩)
    (fun _ _ _ _ => ⟨_, rfl⟩) hf items ts (h.alloc (.item (.array dst [])) 1) [] [] hcopy hts
    (List.nil_append _)
    (Adds.alloc_leaf rfl rfl) item?_alloc_next rfl (by simp)).copyOutcome
    (by rintro d ⟨cs, rfl⟩ h; simp [node, treeNode, hdef])

/-- The map loop, from a fresh empty map of either kind. -/
theorem mapFill {copy : Nat → Mem (Option Nat)} {refused : Nat → Nat → Mem (Option Nat)}
    {src dst : Dst} {pairs : List (Nat × Option Nat)} {b : Bool} (hdef : dst.isDefinite = b)
    (hcap : ∀ n, dst = .definite n → pairs.length ≤ n)
    (hrefused : dst = .indefinite → ∀ k v, refused k v = releasePair h.next k v)
    (hsome : pairs.all (·.2.isSome))
    (hts : unfoldAll (h.unfold f) (ItemData.map src pairs).children = some ts)
    (hcopy : CopiesAll copy τ E f h (ItemData.map src pairs).children) (hf : f + 1 ≤ h.next) :
    CopyOutcome E (f + 1) h (.map b (Pairs.ofList (ts.map τ)))
      (copyPairs copy refused h.next pairs (h.alloc (.item (.map dst [])) 1)) :=
  (copyPairs_fill hcap hrefused hf pairs ts (h.alloc (.item (.map dst [])) 1) [] [] hcopy hsome
    hts (List.nil_append _)
    (Adds.alloc_leaf rfl rfl) item?_alloc_next rfl rfl (by simp)).copyOutcome
    (by rintro d ⟨ps, rfl, hps⟩ h; simp [node, treeNode, hps, hdef])

end Libcbor.CopyLoop
