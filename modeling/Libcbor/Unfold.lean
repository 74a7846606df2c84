import Libcbor.Ops

/-! What an item pointer denotes: the tree unfolding of the graph below it, and its
footprint, the blocks the unfolding visits listed once per path that reaches them.
An item graph is acyclic and complete exactly when some unfolding succeeds; an
unfolding reads nothing outside its footprint, and more fuel never changes it. -/
namespace Libcbor

def Items.ofList : List Item → Items
  | [] => .nil
  | t :: ts => .cons t (Items.ofList ts)

def Pairs.ofList : List Item → Pairs
  | k :: v :: ts => .cons k v (Pairs.ofList ts)
  | _ => .nil

end Libcbor

namespace Libcbor.Unfold

/-- A chunk denotes its bytes when it is a definite string of its parent's kind. -/
def chunkBytes (k : StringKind) : Item → Option (List UInt8)
  | .bytes k' bs => if k' = k then some bs else none
  | _ => none

/-- Unfold every child, failing as soon as one fails. -/
def unfoldAll (f : Nat → Option Item) : List Nat → Option (List Item)
  | [] => some []
  | c :: cs =>
    match f c, unfoldAll f cs with
    | some t, some ts => some (t :: ts)
    | _, _ => none

theorem unfoldAll_eq_some {f : Nat → Option Item} {cs : List Nat} {ts : List Item} :
    unfoldAll f cs = some ts ↔ List.Forall₂ (fun c t => f c = some t) cs ts := by
  induction cs generalizing ts with
  | nil => cases ts <;> simp [unfoldAll]
  | cons c cs ih =>
    constructor
    · intro e
      simp only [unfoldAll] at e
      split at e
      · cases e; exact .cons ‹_› (ih.mp ‹_›)
      · cases e
    · intro hf
      cases hf with
      | cons hc hcs => simp [unfoldAll, hc, ih.mpr hcs]

theorem unfoldAll_congr {f g : Nat → Option Item} {cs : List Nat}
    (hfg : ∀ c ∈ cs, f c = g c) : unfoldAll f cs = unfoldAll g cs := by
  induction cs with
  | nil => rfl
  | cons c cs ih =>
    simp only [unfoldAll, hfg c (by simp), ih fun x hx => hfg x (by simp [hx])]

theorem exists_of_unfoldAll {f : Nat → Option Item} {cs : List Nat} {ts : List Item}
    (h : unfoldAll f cs = some ts) {c : Nat} (hc : c ∈ cs) : ∃ t, f c = some t := by
  induction (unfoldAll_eq_some.mp h) with
  | nil => simp at hc
  | @cons c' t' cs' ts' hct _ ih =>
    rcases List.mem_cons.mp hc with rfl | hc
    · exact ⟨t', hct⟩
    · exact ih (unfoldAll_eq_some.mpr ‹_›) hc

theorem mem_of_unfoldAll {f : Nat → Option Item} {cs : List Nat} {ts : List Item}
    (h : unfoldAll f cs = some ts) {c : Nat} {t : Item} (hc : c ∈ cs) (ht : f c = some t) :
    t ∈ ts := by
  induction (unfoldAll_eq_some.mp h) with
  | nil => simp at hc
  | @cons c' t' cs' ts' hct _ ih =>
    rcases List.mem_cons.mp hc with rfl | hc
    · rw [ht] at hct; cases hct; exact List.mem_cons_self _ _
    · exact List.mem_cons_of_mem _ (ih (unfoldAll_eq_some.mpr ‹_›) hc)

theorem unfoldAll_cons_eq_some {f : Nat → Option Item} {c : Nat} {cs : List Nat}
    {ts : List Item} : unfoldAll f (c :: cs) = some ts ↔
      ∃ t ts', f c = some t ∧ unfoldAll f cs = some ts' ∧ ts = t :: ts' := by
  simp only [unfoldAll_eq_some, List.forall₂_cons_left_iff]

theorem unfoldAll_append {f : Nat → Option Item} {cs cs' : List Nat} {ts ts' : List Item}
    (h : unfoldAll f cs = some ts) (h' : unfoldAll f cs' = some ts') :
    unfoldAll f (cs ++ cs') = some (ts ++ ts') := by
  rw [unfoldAll_eq_some] at *
  exact List.rel_append h h'

end Libcbor.Unfold

namespace Libcbor.Heap

open Unfold

/-- The item stored at `p`, if the block there is an item. -/
def item? (h : Heap) (p : Nat) : Option ItemData :=
  match h.mem p with
  | some (.item d) => some d
  | _ => none

/-- One level of the unfolding for all but a definite string: the tree of an item whose
children denote `ts`. A map with a `NULL` value and a tag without its item are incomplete. -/
def treeNode : ItemData → List Item → Option Item
  | .uint n, _ => some (.uint n)
  | .negint n, _ => some (.negint n)
  | .str k (.indefinite _), ts => (ts.mapM (chunkBytes k)).map (.chunked k)
  | .array dst _, ts => some (.array dst.isDefinite (Items.ofList ts))
  | .map dst pairs, ts =>
    if pairs.all (·.2.isSome) then some (.map dst.isDefinite (Pairs.ofList ts)) else none
  | .tag v (some _), [t] => some (.tag v t)
  | .floatCtrl f, _ => some (.floatCtrl f)
  | _, _ => none

/-- One level of the unfolding; a definite string denotes the bytes of its buffer. -/
def node (h : Heap) : ItemData → List Item → Option Item
  | .str k (.definite handle length), _ => (h.bytesAt handle length).map (.bytes k)
  | d, ts => treeNode d ts

/-- The tree below `p`, unfolding at most `fuel` levels. -/
def unfold : Nat → Heap → Nat → Option Item
  | 0, _, _ => none
  | fuel + 1, h, p => do
    let d ← h.item? p
    let ts ← unfoldAll (unfold fuel h) d.children
    h.node d ts

/-- The blocks visited by `unfold fuel h p`, once for each path that reaches them. -/
def footprint : Nat → Heap → Nat → List Nat
  | 0, _, _ => []
  | fuel + 1, h, p =>
    p :: match h.item? p with
      | some d => d.buffer.toList ++ d.children.flatMap (footprint fuel h)
      | none => []

/-- Every reference below `p`, on paths of at most `fuel` items, is to a live item. Unlike
`unfold` it asks nothing of an item's shape: it holds of items still being built, such as a
tag without its item or a map whose last pair awaits its value. -/
def live : Nat → Heap → Nat → Bool
  | 0, _, _ => false
  | fuel + 1, h, p =>
    match h.item? p with
    | some d => d.children.all (live fuel h)
    | none => false

variable {h h' : Heap} {f g p : Nat} {t : Item} {d : ItemData}

theorem unfold_succ :
    h.unfold (f + 1) p =
      (h.item? p).bind fun d => (unfoldAll (h.unfold f) d.children).bind (h.node d) := rfl

theorem footprint_succ_of_item (hd : h.item? p = some d) :
    h.footprint (f + 1) p = p :: (d.buffer.toList ++ d.children.flatMap (h.footprint f)) := by
  simp [footprint, hd]

theorem item?_of_unfold (hu : h.unfold (f + 1) p = some t) :
    ∃ d ts, h.item? p = some d ∧ unfoldAll (h.unfold f) d.children = some ts ∧
      h.node d ts = some t := by
  simp only [unfold_succ, Option.bind_eq_some] at hu
  obtain ⟨d, hd, ts, hts, hn⟩ := hu
  exact ⟨d, ts, hd, hts, hn⟩

theorem isSome_item?_of_unfold (hu : h.unfold f p = some t) : (h.item? p).isSome := by
  cases f with
  | zero => simp [unfold] at hu
  | succ f =>
    obtain ⟨d, -, hd, -⟩ := item?_of_unfold hu
    simp [hd]

theorem item?_eq_some : h.item? p = some d ↔ h.mem p = some (.item d) := by
  unfold item?; split <;> simp_all

theorem isSome_mem_of_item? (hd : h.item? p = some d) : (h.mem p).isSome := by
  simp [item?_eq_some.mp hd]

theorem item?_congr (hm : h'.mem p = h.mem p) : h'.item? p = h.item? p := by
  simp [item?, hm]

theorem bytesAt_congr {handle : Option Nat} {n : Nat}
    (hb : ∀ b, handle = some b → h'.mem b = h.mem b) : h'.bytesAt handle n = h.bytesAt handle n := by
  cases handle with
  | none => rfl
  | some b => simp [bytesAt, hb b rfl]

theorem node_congr {ts : List Item} (hb : ∀ b, d.buffer = some b → h'.mem b = h.mem b) :
    h'.node d ts = h.node d ts := by
  cases d with
  | str k s =>
    cases s with
    | definite handle length =>
      have hb' : ∀ b, handle = some b → h'.mem b = h.mem b := hb
      simp only [node, bytesAt_congr hb']
    | indefinite _ => rfl
  | _ => rfl

/-- A tag node has its one child. -/
theorem node_tag {value : UInt64} {item : Option Nat} {ts : List Item}
    (hn : h.node (.tag value item) ts = some t) : ∃ c tc, item = some c ∧ ts = [tc] ∧
      t = .tag value tc := by
  rcases item with _ | c
  · cases hn
  · rcases ts with _ | ⟨tc, _ | ⟨_, _⟩⟩ <;> cases hn
    exact ⟨c, tc, rfl, rfl, rfl⟩

/-- A map node has a value in every pair. -/
theorem node_map {dst : Dst} {pairs : List (Nat × Option Nat)} {ts : List Item}
    (hn : h.node (.map dst pairs) ts = some t) :
    pairs.all (·.2.isSome) ∧ t = .map dst.isDefinite (Pairs.ofList ts) := by
  simp only [node, treeNode] at hn
  split_ifs at hn with hsome
  exact ⟨hsome, (Option.some.inj hn).symm⟩

theorem mem_footprint_self : p ∈ h.footprint (f + 1) p := by
  simp [footprint]

theorem mem_footprint_of_unfold (hu : h.unfold f p = some t) : p ∈ h.footprint f p := by
  cases f with
  | zero => simp [unfold] at hu
  | succ f => exact mem_footprint_self

theorem footprint_child_subset (hd : h.item? p = some d) {c : Nat} (hc : c ∈ d.children) :
    h.footprint f c ⊆ h.footprint (f + 1) p := by
  intro a ha
  rw [footprint_succ_of_item hd]
  exact List.mem_cons_of_mem _ (List.mem_append_right _ (List.mem_flatMap.mpr ⟨c, hc, ha⟩))

theorem buffer_mem_footprint (hd : h.item? p = some d) {b : Nat} (hb : d.buffer = some b) :
    b ∈ h.footprint (f + 1) p := by
  simp [footprint_succ_of_item hd, hb]

/-- The frame rule of the denotation: it reads only the blocks of its footprint. -/
theorem unfold_congr (hagree : ∀ a ∈ h.footprint f p, h'.mem a = h.mem a) :
    h'.unfold f p = h.unfold f p ∧ h'.footprint f p = h.footprint f p := by
  induction f generalizing p with
  | zero => exact ⟨rfl, rfl⟩
  | succ f ih =>
    have hp : h'.item? p = h.item? p := item?_congr (hagree p mem_footprint_self)
    cases hd : h.item? p with
    | none => simp [unfold_succ, footprint, hp, hd]
    | some d =>
      have hc : ∀ c ∈ d.children, h'.unfold f c = h.unfold f c ∧
          h'.footprint f c = h.footprint f c := fun c hc =>
        ih fun a ha => hagree a (footprint_child_subset hd hc ha)
      have hb : ∀ b, d.buffer = some b → h'.mem b = h.mem b := fun b hb =>
        hagree b (buffer_mem_footprint hd hb)
      constructor
      · simp only [unfold_succ, hp, hd, Option.some_bind, node_congr hb,
          unfoldAll_congr fun c hc' => (hc c hc').1]
      · rw [footprint_succ_of_item hd, footprint_succ_of_item (hp.trans hd),
          List.flatMap_congr fun c hc' => (hc c hc').2]

theorem live_succ_of_item (hd : h.item? p = some d) :
    h.live (f + 1) p = d.children.all (h.live f) := by
  simp [live, hd]

theorem item?_of_live (hl : h.live (f + 1) p = true) :
    ∃ d, h.item? p = some d ∧ ∀ c ∈ d.children, h.live f c = true := by
  cases hd : h.item? p with
  | none => simp [live, hd] at hl
  | some d => exact ⟨d, rfl, List.all_eq_true.mp (live_succ_of_item hd ▸ hl)⟩

/-- What unfolds is live. -/
theorem live_of_unfold : ∀ {f p : Nat} {t : Item}, h.unfold f p = some t → h.live f p = true
  | 0, _, _, hu => by simp [unfold] at hu
  | f + 1, _, _, hu => by
    obtain ⟨d, _, hd, hts, -⟩ := item?_of_unfold hu
    rw [live_succ_of_item hd, List.all_eq_true]
    intro c hc
    obtain ⟨tc, htc⟩ := exists_of_unfoldAll hts hc
    exact live_of_unfold htc

/-- Liveness reads only the blocks of the footprint. -/
theorem live_congr (hagree : ∀ a ∈ h.footprint f p, h'.mem a = h.mem a) :
    h'.live f p = h.live f p := by
  induction f generalizing p with
  | zero => rfl
  | succ f ih =>
    have hp : h'.item? p = h.item? p := item?_congr (hagree p mem_footprint_self)
    cases hd : h.item? p with
    | none => simp only [live, hp, hd]
    | some d =>
      rw [live_succ_of_item hd, live_succ_of_item (hp.trans hd), Bool.eq_iff_iff, List.all_eq_true,
        List.all_eq_true]
      exact forall₂_congr fun c hc => by
        rw [ih fun a ha => hagree a (footprint_child_subset hd hc ha)]

theorem mem_of_bytesAt {handle : Option Nat} {n : Nat} {bs : List UInt8}
    (hb : h.bytesAt handle n = some bs) (hn : n ≠ 0) {b : Nat} (hbh : handle = some b) :
    (h.mem b).isSome := by
  subst hbh
  unfold bytesAt at hb
  simp only [hn, if_false] at hb
  split at hb <;> simp_all

/-- A successful unfolding survives any change to blocks it finds dead. -/
theorem unfold_of_agree_live (hu : h.unfold f p = some t)
    (hagree : ∀ a ∈ h.footprint f p, (h.mem a).isSome → h'.mem a = h.mem a) :
    h'.unfold f p = some t ∧ h'.footprint f p = h.footprint f p := by
  induction f generalizing p t with
  | zero => simp [unfold] at hu
  | succ f ih =>
    obtain ⟨d, ts, hd, hts, hn⟩ := item?_of_unfold hu
    have hlive : (h.mem p).isSome := by unfold item? at hd; split at hd <;> simp_all
    have hp : h'.item? p = some d := (item?_congr (hagree p mem_footprint_self hlive)).trans hd
    have hc : ∀ c ∈ d.children, h'.unfold f c = h.unfold f c ∧
        h'.footprint f c = h.footprint f c := fun c hc => by
      obtain ⟨tc, htc⟩ := exists_of_unfoldAll hts hc
      obtain ⟨e1, e2⟩ := ih htc fun a ha => hagree a (footprint_child_subset hd hc ha)
      exact ⟨e1.trans htc.symm, e2⟩
    have hnode : h'.node d ts = h.node d ts := by
      cases d with
      | str k s =>
        cases s with
        | definite handle length =>
          by_cases hl : length = 0
          · simp [node, bytesAt, hl]
          · obtain ⟨bs, hbs, -⟩ := Option.map_eq_some'.mp hn
            have hb : ∀ b, handle = some b → h'.mem b = h.mem b := fun b hb =>
              hagree b (buffer_mem_footprint hd hb) (mem_of_bytesAt hbs hl hb)
            simp only [node, bytesAt_congr hb]
        | indefinite _ => rfl
      | _ => rfl
    constructor
    · simp only [unfold_succ, hp, Option.some_bind, hnode,
        unfoldAll_congr fun c hc' => (hc c hc').1, hts, hn]
    · rw [footprint_succ_of_item hd, footprint_succ_of_item hp,
        List.flatMap_congr fun c hc' => (hc c hc').2]

/-- More fuel unfolds to the same tree over the same footprint. -/
theorem unfold_mono (hu : h.unfold f p = some t) (hfg : f ≤ g) :
    h.unfold g p = some t ∧ h.footprint g p = h.footprint f p := by
  induction f generalizing g p t with
  | zero => simp [unfold] at hu
  | succ f ih =>
    cases g with
    | zero => omega
    | succ g =>
      obtain ⟨d, ts, hd, hts, hn⟩ := item?_of_unfold hu
      have hc : ∀ c ∈ d.children, h.unfold g c = h.unfold f c ∧
          h.footprint g c = h.footprint f c := fun c hc => by
        obtain ⟨tc, htc⟩ := exists_of_unfoldAll hts hc
        obtain ⟨e1, e2⟩ := ih htc (show f ≤ g by omega)
        exact ⟨e1.trans htc.symm, e2⟩
      constructor
      · simp only [unfold_succ, hd, Option.some_bind,
          unfoldAll_congr fun c hc' => (hc c hc').1, hts, hn]
      · rw [footprint_succ_of_item hd, footprint_succ_of_item hd,
          List.flatMap_congr fun c hc' => (hc c hc').2]

/-- Where one more level of fuel is needed, it is needed for some child. -/
theorem exists_child_of_unfold_none {k : Nat} (hu : h.unfold (k + 2) p = some t)
    (hn : h.unfold (k + 1) p = none) :
    ∃ c, (h.unfold (k + 1) c).isSome ∧ h.unfold k c = none := by
  obtain ⟨d, ts, hd, hts, hnode⟩ := item?_of_unfold hu
  by_contra hne
  push_neg at hne
  have hall : unfoldAll (h.unfold k) d.children = some ts := by
    rw [unfoldAll_congr fun c hc => ?_]
    · exact hts
    · obtain ⟨tc, htc⟩ := exists_of_unfoldAll hts hc
      obtain ⟨tc', htc'⟩ := Option.ne_none_iff_exists'.mp (hne c (by simp [htc]))
      rw [htc', ← (unfold_mono htc' (Nat.le_succ k)).1, htc]
  simp [unfold_succ, hd, hall, hnode] at hn

/-- An unfolding that needs exactly `k + 1` levels passes `k + 1` distinct items. -/
theorem exists_chain : ∀ {k p : Nat}, (h.unfold (k + 1) p).isSome → h.unfold k p = none →
    ∃ L : List Nat, L.length = k + 1 ∧ L.Nodup ∧ ∀ a ∈ L, (h.unfold (k + 1) a).isSome
  | 0, p, hu, _ => ⟨[p], rfl, List.nodup_singleton p, by simpa using hu⟩
  | k + 1, p, hu, hn => by
    obtain ⟨t, ht⟩ := Option.isSome_iff_exists.mp hu
    obtain ⟨c, hc, hcn⟩ := exists_child_of_unfold_none ht hn
    obtain ⟨L, hlen, hnd, hL⟩ := exists_chain hc hcn
    refine ⟨p :: L, by simp [hlen], List.nodup_cons.mpr ⟨fun hp => ?_, hnd⟩, ?_⟩
    · simpa [hn] using hL p hp
    · intro a ha
      rcases List.mem_cons.mp ha with rfl | ha
      · exact hu
      · obtain ⟨ta, hta⟩ := Option.isSome_iff_exists.mp (hL a ha)
        simp [(unfold_mono hta (Nat.le_succ _)).1]

/-- No unfolding needs more levels than there are addresses. -/
theorem unfold_pred {k : Nat} (hu : h.unfold (k + 1) p = some t) (hk : h.next ≤ k) :
    h.unfold k p = some t := by
  cases hn : h.unfold k p with
  | some t' => rw [← (unfold_mono hn (Nat.le_succ k)).1, hu]
  | none =>
    obtain ⟨L, hlen, hnd, hL⟩ := exists_chain (by simp [hu]) hn
    have hsub : L ⊆ List.range h.next := fun a ha => by
      obtain ⟨ta, hta⟩ := Option.isSome_iff_exists.mp (hL a ha)
      exact List.mem_range.mpr (lt_next_of_mem h (Option.get_mem
        (isSome_mem_of_item? (Option.get_mem (isSome_item?_of_unfold hta)))))
    have := (List.subperm_of_subset hnd hsub).length_le
    simp at this
    omega

/-- An item graph that unfolds at all unfolds within `h.next` levels. -/
theorem unfold_next : ∀ {f : Nat}, h.unfold f p = some t → h.unfold h.next p = some t
  | 0, hu => by simp [unfold] at hu
  | k + 1, hu =>
    if hk : k + 1 ≤ h.next then (unfold_mono hu hk).1 else unfold_next (unfold_pred hu (by omega))

/-- ... and visits the same blocks there. -/
theorem footprint_next (hu : h.unfold f p = some t) : h.footprint h.next p = h.footprint f p := by
  by_cases hf : f ≤ h.next
  · exact (unfold_mono hu hf).2
  · exact ((unfold_mono (unfold_next hu) (show h.next ≤ f by omega)).2).symm

end Libcbor.Heap
