import Libcbor.Own

/-! Heap growth along a copy. `Grows` keeps every old block with its count and the
allocator schedule; `Alike` keeps contents and counts outright; `Adds` adds fresh trees
owned exclusively by their roots and nothing else. A copy that succeeds `Adds` one tree,
one that fails leaves the heap `Alike`. -/
namespace Libcbor.Heap

open Ops Unfold Own

/-- `h'` keeps every block of `h` with its count, and the allocator schedule. -/
structure Grows (h h' : Heap) : Prop where
  old : ∀ a, a < h.next → h'.mem a = h.mem a ∧ h'.refcount a = h.refcount a
  next_le : h.next ≤ h'.next
  calls_le : h.calls ≤ h'.calls
  allocFails : h'.allocFails = h.allocFails

/-- `h'` has exactly the contents and counts of `h`: only allocator bookkeeping moved. -/
structure Alike (h h' : Heap) : Prop where
  mem : h'.mem = h.mem
  refcount : h'.refcount = h.refcount
  next_le : h.next ≤ h'.next
  calls_le : h.calls ≤ h'.calls
  allocFails : h'.allocFails = h.allocFails

/-- `h'` is `h` plus fresh trees below the roots `qs` (unfolding `f` levels): every new
block is reached from a root along exactly one path and counts one reference. -/
structure Adds (f : Nat) (h h' : Heap) (qs : List Nat) extends h.Grows h' : Prop where
  new : ∀ a, h.next ≤ a → ((h'.mem a).isSome ↔ a ∈ qs.flatMap (h'.footprint f))
  fresh : ∀ a ∈ qs.flatMap (h'.footprint f), h.next ≤ a
  nodup : (qs.flatMap (h'.footprint f)).Nodup
  counted : ∀ a ∈ qs.flatMap (h'.footprint f), (h'.item? a).isSome → h'.refcount a = 1

variable {h h₁ h₂ h' : Heap} {f p q a : Nat} {t : Item} {qs rs : List Nat}

lemma mem_eq_none_of_le (ha : h.next ≤ a) : h.mem a = none := h.fresh a ha

lemma refcount_eq_zero_of_le (ha : h.next ≤ a) : h.refcount a = 0 :=
  h.dead a (h.fresh a ha)

lemma lt_next_of_isSome (ha : (h.mem a).isSome) : a < h.next := by
  by_contra hn
  simp [h.fresh a (by omega)] at ha

lemma Grows.refl (h : Heap) : h.Grows h := ⟨fun _ _ => ⟨rfl, rfl⟩, le_rfl, le_rfl, rfl⟩

lemma Grows.trans (g₁ : h.Grows h₁) (g₂ : h₁.Grows h₂) : h.Grows h₂ where
  old a ha := by
    obtain ⟨m₁, r₁⟩ := g₁.old a ha
    obtain ⟨m₂, r₂⟩ := g₂.old a (lt_of_lt_of_le ha g₁.next_le)
    exact ⟨m₂.trans m₁, r₂.trans r₁⟩
  next_le := g₁.next_le.trans g₂.next_le
  calls_le := g₁.calls_le.trans g₂.calls_le
  allocFails := g₂.allocFails.trans g₁.allocFails

lemma grows_alloc (h : Heap) (b : Block) (rc : Nat) : h.Grows (h.alloc b rc) :=
  ⟨fun a ha => by simp [Function.update_noteq (show a ≠ h.next by omega)], Nat.le_succ _,
    Nat.le_succ _, rfl⟩

/-- The bytes a string reads from old blocks survive growth. -/
lemma Grows.bytesAt {handle : Option Nat} {n : Nat} {bs : List UInt8} (g : h.Grows h')
    (hb : h.bytesAt handle n = some bs) : h'.bytesAt handle n = some bs := by
  by_cases hn : n = 0
  · simpa [bytesAt, hn] using hb
  · rwa [bytesAt_congr fun b hbh => (g.old b (lt_next_of_isSome (mem_of_bytesAt hb hn hbh))).1]

lemma Alike.refl (h : Heap) : h.Alike h := ⟨rfl, rfl, le_rfl, le_rfl, rfl⟩

lemma Alike.trans (e₁ : h.Alike h₁) (e₂ : h₁.Alike h₂) : h.Alike h₂ :=
  ⟨e₂.mem.trans e₁.mem, e₂.refcount.trans e₁.refcount, e₁.next_le.trans e₂.next_le,
    e₁.calls_le.trans e₂.calls_le, e₂.allocFails.trans e₁.allocFails⟩

lemma Alike.grows (e : h.Alike h') : h.Grows h' :=
  ⟨fun a _ => ⟨congrFun e.mem a, congrFun e.refcount a⟩, e.next_le, e.calls_le, e.allocFails⟩

lemma Alike.setRefcount {n : Nat} (e : h.Alike h') :
    (h.setRefcount p n).Alike (h'.setRefcount p n) :=
  ⟨by simp [e.mem], funext fun a => by simp [setRefcount_refcount_apply, e.mem, e.refcount],
    by simpa using e.next_le, by simpa using e.calls_le, by simpa using e.allocFails⟩

lemma Alike.modify {g : Block → Block} (e : h.Alike h') : (h.modify p g).Alike (h'.modify p g) :=
  ⟨by simp [e.mem], by simp [e.refcount], by simpa using e.next_le, by simpa using e.calls_le,
    by simpa using e.allocFails⟩

lemma Alike.unfold (e : h.Alike h') : h'.unfold f p = h.unfold f p :=
  (unfold_congr fun a _ => congrFun e.mem a).1

lemma alike_tick (h : Heap) : h.Alike h.tick := ⟨rfl, rfl, le_rfl, Nat.le_succ _, rfl⟩

/-- An allocation whose block is freed again leaves contents and counts as they were. -/
lemma alike_alloc_tick_free (h : Heap) (b : Block) (rc : Nat) :
    h.Alike ((h.alloc b rc).tick.free h.next) :=
  ⟨funext fun a => by by_cases e : a = h.next <;> simp [e, mem_eq_none_of_le],
    funext fun a => by by_cases e : a = h.next <;> simp [e, refcount_eq_zero_of_le],
    by simp, by simp; omega, by simp⟩

lemma NoFail.grows (hf : h.NoFail) (g : h.Grows h') : h'.NoFail := fun n hn => by
  rw [g.allocFails]; exact hf n (g.calls_le.trans hn)

lemma not_noFail_of_fails (hx : h.allocFails h.calls = true) : ¬ h.NoFail := fun hf => by
  simp [hf h.calls le_rfl] at hx

lemma not_noFail_of_grows (g : h.Grows h') (hn : ¬ h'.NoFail) : ¬ h.NoFail :=
  fun hf => hn (hf.grows g)

/-- An unfolding over old blocks is untouched by growth. -/
lemma Grows.unfold (g : h.Grows h') (hu : h.unfold f p = some t) :
    h'.unfold f p = some t ∧ h'.footprint f p = h.footprint f p :=
  unfold_of_agree_live hu fun a _ ha => (g.old a (lt_next_of_isSome ha)).1

lemma Adds.lt_next (ha : h.Adds f h' qs) (hx : a ∈ qs.flatMap (h'.footprint f)) :
    a < h'.next :=
  lt_next_of_isSome ((ha.new a (ha.fresh a hx)).mpr hx)

lemma Adds.alike (ha : h.Adds f h₁ qs) (e : h₁.Alike h₂) : h.Adds f h₂ qs := by
  have hfp : qs.flatMap (h₂.footprint f) = qs.flatMap (h₁.footprint f) :=
    List.flatMap_congr fun q _ => (unfold_congr fun a _ => congrFun e.mem a).2
  exact
    { toGrows := ha.toGrows.trans e.grows
      new := fun a hx => by rw [hfp, congrFun e.mem a]; exact ha.new a hx
      fresh := hfp ▸ ha.fresh
      nodup := hfp ▸ ha.nodup
      counted := fun a hx hs => by
        rw [hfp] at hx
        rw [congrFun e.refcount a]
        exact ha.counted a hx (by rwa [item?_congr (congrFun e.mem a)] at hs) }

/-- Trees added one after another are added together. -/
lemma Adds.trans (a₁ : h.Adds f h₁ qs) (a₂ : h₁.Adds f h₂ rs) : h.Adds f h₂ (qs ++ rs) := by
  have hlt : ∀ a ∈ qs.flatMap (h₁.footprint f), a < h₁.next := fun a hx => a₁.lt_next hx
  have hfp : qs.flatMap (h₂.footprint f) = qs.flatMap (h₁.footprint f) :=
    List.flatMap_congr fun q hq => (unfold_congr fun a hx =>
      (a₂.old a (hlt a (List.mem_flatMap.mpr ⟨q, hq, hx⟩))).1).2
  have hsep : ∀ a ∈ rs.flatMap (h₂.footprint f), h₁.next ≤ a := a₂.fresh
  refine
    { toGrows := a₁.toGrows.trans a₂.toGrows
      new := fun a hx => ?_
      fresh := fun a hx => ?_
      nodup := ?_
      counted := fun a hx hs => ?_ } <;> simp only [List.flatMap_append, hfp] at *
  · by_cases hlo : a < h₁.next
    · rw [(a₂.old a hlo).1, a₁.new a hx, List.mem_append]
      exact ⟨.inl, fun h => h.elim id fun hr => absurd (hsep a hr) (by omega)⟩
    · rw [a₂.new a (by omega), List.mem_append]
      exact ⟨.inr, fun h => h.elim (fun hq => absurd (hlt a hq) hlo) id⟩
  · rcases List.mem_append.mp hx with hq | hr
    · exact a₁.fresh a hq
    · exact a₁.next_le.trans (hsep a hr)
  · refine List.nodup_append.mpr ⟨a₁.nodup, a₂.nodup, fun a hq hr => ?_⟩
    exact absurd (hsep a hr) (by have := hlt a hq; omega)
  · rcases List.mem_append.mp hx with hq | hr
    · obtain ⟨hm, hrc⟩ := a₂.old a (hlt a hq)
      rw [hrc]; exact a₁.counted a hq (by rwa [item?_congr hm] at hs)
    · exact a₂.counted a hr hs

/-- Fresh trees that are all gone leave contents and counts as they were. -/
lemma Adds.alike_of_nil (ha : h.Adds f h' []) : h.Alike h' := by
  have hnew : ∀ a, h.next ≤ a → h'.mem a = none := fun a hle => by
    simpa using ha.new a hle
  refine ⟨funext fun a => ?_, funext fun a => ?_, ha.next_le, ha.calls_le, ha.allocFails⟩
  · by_cases hlo : a < h.next
    · exact (ha.old a hlo).1
    · rw [hnew a (by omega), mem_eq_none_of_le (by omega)]
  · by_cases hlo : a < h.next
    · exact (ha.old a hlo).2
    · rw [h'.dead a (hnew a (by omega)), refcount_eq_zero_of_le (by omega)]

/-- Releasing the first of several fresh trees, live if not complete, leaves the others
fresh, and untouched. -/
lemma Adds.decref_cons (ha : h.Adds f h' (q :: qs)) (hl : h'.live f q = true)
    (hf : f ≤ h'.next) :
    ∃ h'', cborDecref q h' = .ok ((), h'') ∧ h.Adds f h'' qs ∧
      (∀ r ∈ qs, ∀ a ∈ h'.footprint f r, h''.mem a = h'.mem a) ∧ h''.next = h'.next := by
  have hnd := ha.nodup
  simp only [List.flatMap_cons, List.nodup_append] at hnd
  obtain ⟨h'', hd, hfr⟩ := cborDecrefAux_frees hl hf
    ⟨hnd.1, fun a hx => ha.counted a (by simp [hx])⟩
  have hout : ∀ a ∈ qs.flatMap (h'.footprint f), a ∉ h'.footprint f q :=
    fun a hx hq => hnd.2.2 hq hx
  have hframe : ∀ r ∈ qs, ∀ a ∈ h'.footprint f r, h''.mem a = h'.mem a := fun r hr a hx =>
    hfr.mem_of_not_mem (hout a (List.mem_flatMap.mpr ⟨r, hr, hx⟩))
  have hfp : qs.flatMap (h''.footprint f) = qs.flatMap (h'.footprint f) :=
    List.flatMap_congr fun r hr => (unfold_congr (hframe r hr)).2
  have hfresh : ∀ a ∈ h'.footprint f q, h.next ≤ a := fun a hx => ha.fresh a (by simp [hx])
  refine ⟨h'', hd, ?_, hframe, hfr.next⟩
  refine
    { old := fun a hlo => ?_
      next_le := hfr.next ▸ ha.next_le
      calls_le := hfr.calls ▸ ha.calls_le
      allocFails := hfr.allocFails.trans ha.allocFails
      new := fun a hle => ?_
      fresh := hfp ▸ fun a hx => ha.fresh a (by simp [hx])
      nodup := hfp ▸ hnd.2.1
      counted := fun a hx hs => ?_ }
  · have hq : a ∉ h'.footprint f q := fun hx => absurd (hfresh a hx) (by omega)
    rw [hfr.mem_of_not_mem hq, hfr.refcount_of_not_mem hq]
    exact ha.old a hlo
  · rw [hfp, hfr.mem]
    split_ifs with hq
    · simpa using fun hx => hout a hx hq
    · rw [ha.new a hle]
      simp [hq]
  · rw [hfp] at hx
    rw [hfr.refcount_of_not_mem (hout a hx)]
    exact ha.counted a (by simp [hx]) (by rwa [hfr.item?_of_not_mem (hout a hx)] at hs)

/-- Releasing a fresh tree leaves the heap as it was before the tree was built. -/
lemma Adds.decref (ha : h.Adds f h' [q]) (hu : h'.unfold f q = some t) (hf : f ≤ h'.next) :
    ∃ h'', cborDecref q h' = .ok ((), h'') ∧ h.Alike h'' := by
  obtain ⟨h'', hd, ha', -, -⟩ := ha.decref_cons (live_of_unfold hu) hf
  exact ⟨h'', hd, ha'.alike_of_nil⟩

/-- Fresh trees that unfold are fresh trees at any larger fuel. -/
lemma Adds.mono {g : Nat} (ha : h.Adds f h' qs) (hu : ∀ q ∈ qs, ∃ t, h'.unfold f q = some t)
    (hfg : f ≤ g) : h.Adds g h' qs := by
  have hfp : qs.flatMap (h'.footprint g) = qs.flatMap (h'.footprint f) :=
    List.flatMap_congr fun q hq => by
      obtain ⟨t, ht⟩ := hu q hq
      exact (unfold_mono ht hfg).2
  exact
    { toGrows := ha.toGrows
      new := hfp ▸ ha.new
      fresh := hfp ▸ ha.fresh
      nodup := hfp ▸ ha.nodup
      counted := hfp ▸ ha.counted }

/-- A fresh tree is released by `cbor_decref` also after allocator bookkeeping moved. -/
lemma Adds.release (ha : h.Adds f h₁ [q]) (hu : h₁.unfold f q = some t) (hf : f ≤ h.next)
    (e : h₁.Alike h₂) : ∃ h₃, cborDecref q h₂ = .ok ((), h₃) ∧ h.Alike h₃ :=
  (ha.alike e).decref ((unfold_congr fun a _ => congrFun e.mem a).1.trans hu)
    (hf.trans (ha.next_le.trans e.next_le))

lemma modify_mem_ne {g : Block → Block} (ha : a ≠ p) : (h.modify p g).mem a = h.mem a := by
  simp [Function.update_noteq ha]

lemma item?_alloc_next {d : ItemData} {rc : Nat} : (h.alloc (.item d) rc).item? h.next = some d := by
  simp [item?]

/-- A new item without children or buffer is a fresh tree of its own. -/
lemma Adds.alloc_leaf {d : ItemData} (hch : d.children = []) (hbuf : d.buffer = none) :
    h.Adds (f + 1) (h.alloc (.item d) 1) [h.next] := by
  have hfp : [h.next].flatMap ((h.alloc (.item d) 1).footprint (f + 1)) = [h.next] := by
    simp [footprint_succ_of_item item?_alloc_next, hch, hbuf]
  refine
    { old := fun a ha => ?_
      next_le := Nat.le_succ _
      calls_le := Nat.le_succ _
      allocFails := rfl
      new := fun a ha => ?_
      fresh := ?_
      nodup := ?_
      counted := ?_ }
  · simp [Function.update_noteq (show a ≠ h.next by omega)]
  all_goals rw [hfp]
  · by_cases e : a = h.next
    · subst e; simp
    · simp [Function.update_noteq e, mem_eq_none_of_le ha, e]
  · simp
  · simp
  · simp

/-- A new item without children, owning a new buffer, is a fresh tree of two blocks. -/
lemma Adds.leaf_buffer {r b : Nat} {d : ItemData} (g : h.Grows h') (hd : h'.item? r = some d)
    (hch : d.children = []) (hbuf : d.buffer = some b) (hb : h'.item? b = none)
    (hrc : h'.refcount r = 1) (hr : h.next ≤ r) (hb' : h.next ≤ b) (hrb : r ≠ b)
    (hnew : ∀ a, h.next ≤ a → ((h'.mem a).isSome ↔ a = r ∨ a = b)) :
    h.Adds (f + 1) h' [r] := by
  have hfp : [r].flatMap (h'.footprint (f + 1)) = [r, b] := by
    simp [footprint_succ_of_item hd, hch, hbuf]
  refine { toGrows := g, new := ?_, fresh := ?_, nodup := ?_, counted := ?_ } <;> rw [hfp]
  · intro a ha; simp [hnew a ha]
  · simp [hr, hb']
  · simp [hrb]
  · intro a hx hs
    simp only [List.mem_cons, List.not_mem_nil, or_false] at hx
    rcases hx with rfl | rfl
    · exact hrc
    · simp [hb] at hs

lemma mem_alloc_alloc_isSome {b₁ b₂ : Block} {r₁ r₂ : Nat} (ha : h.next ≤ a) :
    (((h.alloc b₁ r₁).alloc b₂ r₂).mem a).isSome ↔ a = h.next ∨ a = h.next + 1 := by
  by_cases e₁ : a = h.next + 1
  · simp [e₁]
  · by_cases e₂ : a = h.next
    · simp [e₂]
    · simp [Function.update_noteq e₁, Function.update_noteq e₂, mem_eq_none_of_le ha, e₁, e₂]

/-- A new definite string with its new buffer is a fresh tree of two blocks. -/
lemma Adds.alloc_buffer {d : ItemData} {bs : List UInt8} (hch : d.children = [])
    (hbuf : d.buffer = some (h.next + 1)) :
    h.Adds (f + 1) ((h.alloc (.item d) 1).alloc (.bytes bs) 0) [h.next] :=
  .leaf_buffer ((grows_alloc h _ _).trans (grows_alloc _ _ _))
    (by simp [item?, Function.update_noteq (show h.next ≠ h.next + 1 by omega)]) hch hbuf
    (by simp [item?]) (by simp [Function.update_noteq (show h.next ≠ h.next + 1 by omega)])
    le_rfl (Nat.le_succ _) (by omega) fun _ => mem_alloc_alloc_isSome

/-- The same two blocks allocated buffer first, as `cbor_copy_definite` does. -/
lemma Adds.buffer_alloc {d : ItemData} {bs : List UInt8} (hch : d.children = [])
    (hbuf : d.buffer = some h.next) :
    h.Adds (f + 1) ((h.alloc (.bytes bs) 0).alloc (.item d) 1) [h.next + 1] :=
  .leaf_buffer ((grows_alloc h _ _).trans (grows_alloc _ _ _)) (by simp [item?]) hch hbuf
    (by simp [item?, Function.update_noteq (show h.next ≠ h.next + 1 by omega)]) (by simp)
    (Nat.le_succ _) le_rfl (by omega) fun _ ha => (mem_alloc_alloc_isSome ha).trans or_comm

/-- Unfoldings over old blocks survive growth, a list of them too. -/
lemma Grows.unfoldAll {cs : List Nat} {ts : List Item} (g : h.Grows h')
    (hts : Unfold.unfoldAll (h.unfold f) cs = some ts) :
    Unfold.unfoldAll (h'.unfold f) cs = some ts := by
  rw [unfoldAll_congr fun c hc => ?_]
  · exact hts
  · obtain ⟨t, ht⟩ := exists_of_unfoldAll hts hc
    rw [(g.unfold ht).1, ht]

/-- One level of an unfolding over old blocks, read before and after growth. -/
lemma Grows.node_of_unfold (g : h.Grows h') (hu : h.unfold (f + 1) p = some t) :
    ∃ d ts, h.item? p = some d ∧ Unfold.unfoldAll (h.unfold f) d.children = some ts ∧
      h.node d ts = some t ∧ h'.item? p = some d ∧
      Unfold.unfoldAll (h'.unfold f) d.children = some ts ∧ h'.node d ts = some t := by
  obtain ⟨d, ts, hd, hts, hn⟩ := item?_of_unfold hu
  obtain ⟨d', ts', hd', hts', hn'⟩ := item?_of_unfold (g.unfold hu).1
  have e : h'.item? p = some d :=
    (item?_congr (g.old p (lt_next_of_isSome (isSome_mem_of_item? hd))).1).trans hd
  rw [e] at hd'
  cases hd'
  rw [g.unfoldAll hts] at hts'
  cases hts'
  exact ⟨d, ts, hd, hts, hn, e, g.unfoldAll hts, hn'⟩

/-- Fresh trees are fresh in any order. -/
lemma Adds.swap (ha : h.Adds f h' [p, q]) : h.Adds f h' [q, p] := by
  have hm : ∀ a, a ∈ [q, p].flatMap (h'.footprint f) ↔ a ∈ [p, q].flatMap (h'.footprint f) := by
    simp [or_comm]
  exact
    { toGrows := ha.toGrows
      new := fun a hle => (ha.new a hle).trans (hm a).symm
      fresh := fun a hx => ha.fresh a ((hm a).mp hx)
      nodup := by simpa [List.nodup_append_comm] using ha.nodup
      counted := fun a hx => ha.counted a ((hm a).mp hx) }

/-- Linking fresh trees under a fresh item, after its children, leaves one fresh tree and
leaves what every child denotes alone. -/
lemma Adds.link {h₀ : Heap} {res : Nat} {d d' : ItemData} {news : List Nat}
    (ha : h₀.Adds (f + 1) h (res :: news)) (hd : h.item? res = some d)
    (hu : ∀ n ∈ news, ∃ t, h.unfold f n = some t)
    (hch : d'.children = d.children ++ news) (hbuf : d'.buffer = d.buffer) :
    h₀.Adds (f + 1) (h.modify res fun _ => .item d') [res] ∧
      ∀ c ∈ d'.children, (h.modify res fun _ => .item d').unfold f c = h.unfold f c ∧
        (h.modify res fun _ => .item d').footprint f c = h.footprint f c := by
  have hmono : news.flatMap (h.footprint (f + 1)) = news.flatMap (h.footprint f) :=
    List.flatMap_congr fun n hn => by
      obtain ⟨t, ht⟩ := hu n hn
      exact (unfold_mono ht (Nat.le_succ f)).2
  have hF : (res :: news).flatMap (h.footprint (f + 1)) =
      res :: (d.buffer.toList ++ d'.children.flatMap (h.footprint f)) := by
    simp [footprint_succ_of_item hd, hch, hmono]
  have hnd := ha.nodup
  rw [hF, List.nodup_cons] at hnd
  have hframe : ∀ c ∈ d'.children, (h.modify res fun _ => .item d').unfold f c = h.unfold f c ∧
      (h.modify res fun _ => .item d').footprint f c = h.footprint f c := fun c hc =>
    unfold_congr fun a hx => modify_mem_ne fun e =>
      hnd.1 (e ▸ List.mem_append_right _ (List.mem_flatMap.mpr ⟨c, hc, hx⟩))
  have hd' : (h.modify res fun _ => .item d').item? res = some d' := by
    simp [item?, item?_eq_some.mp hd]
  have hF' : [res].flatMap ((h.modify res fun _ => .item d').footprint (f + 1)) =
      (res :: news).flatMap (h.footprint (f + 1)) := by
    rw [hF]
    simp [footprint_succ_of_item hd', hbuf, List.flatMap_congr fun c hc => (hframe c hc).2]
  have hres_ge : h₀.next ≤ res := ha.fresh res (by simp [mem_footprint_self])
  have hlive : ∀ a, ((h.modify res fun _ => .item d').mem a).isSome = (h.mem a).isSome :=
    fun a => by by_cases e : a = res <;> simp [e, modify_mem_ne, item?_eq_some.mp hd]
  refine ⟨?_, hframe⟩
  refine
    { old := fun a hlo => ⟨(modify_mem_ne (by omega)).trans (ha.old a hlo).1, (ha.old a hlo).2⟩
      next_le := ha.next_le
      calls_le := ha.calls_le
      allocFails := ha.allocFails
      new := fun a hle => ?_
      fresh := hF' ▸ ha.fresh
      nodup := hF' ▸ ha.nodup
      counted := fun a hx hs => ?_ }
  · rw [hF', hlive]; exact ha.new a hle
  · rw [hF'] at hx
    refine ha.counted a hx ?_
    by_cases e : a = res
    · simp [e, hd]
    · rwa [item?_congr (modify_mem_ne e)] at hs

/-- One round of a copy loop: fresh entries appended to a fresh container, with the
container rewritten in place, keep it one fresh tree whose entries denote the old trees
followed by the new ones. -/
lemma Adds.append {h₀ h'' : Heap} {res : Nat} {d d' : ItemData} {news : List Nat}
    {ts tsNew : List Item} (hres : h₀.Adds (f + 1) h [res]) (hd : h.item? res = some d)
    (hts : unfoldAll (h.unfold f) d.children = some ts) (hnew : h.Adds f h' news)
    (htsNew : unfoldAll (h'.unfold f) news = some tsNew)
    (hch : d'.children = d.children ++ news) (hbuf : d'.buffer = d.buffer)
    (e : (h'.modify res fun _ => .item d').Alike h'') :
    h₀.Adds (f + 1) h'' [res] ∧ h''.item? res = some d' ∧
      unfoldAll (h''.unfold f) d'.children = some (ts ++ tsNew) := by
  have hlt : res < h.next := hres.lt_next (by simpa using mem_footprint_self)
  have hd' : h'.item? res = some d := (item?_congr (hnew.old res hlt).1).trans hd
  obtain ⟨hA, hframe⟩ := Adds.link (hres.trans (hnew.mono (fun n hn =>
    exists_of_unfoldAll htsNew hn) (Nat.le_succ f))) hd'
    (fun n hn => exists_of_unfoldAll htsNew hn) hch hbuf
  refine ⟨hA.alike e, ?_, ?_⟩
  · rw [item?_congr (congrFun e.mem res)]
    simp [item?, item?_eq_some.mp hd']
  · rw [unfoldAll_congr fun c hc => e.unfold.trans (hframe c hc).1, hch]
    exact unfoldAll_append (hnew.toGrows.unfoldAll hts) htsNew

end Libcbor.Heap
