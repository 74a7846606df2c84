import Libcbor.CopyDefinite
import Libcbor.CopySpec

/-! The collapse of a chunked string in `cbor_copy_definite`. Over chunks holding `bss`,
the first loop computes the sum of their lengths modulo `2 ^ w`. When the sum is below
`2 ^ w` the second loop fills the buffer with the chunks' bytes in order; otherwise the
buffer is shorter than the bytes, and one of the `memcpy`s runs past its end. -/
namespace Libcbor.Heap

/-- Chunk `c` of a `k` string is a definite `k` string holding `bs`. -/
def ChunkAt (h : Heap) (k : StringKind) (c : Nat) (bs : List UInt8) : Prop :=
  ∃ handle, h.item? c = some (.str k (.definite handle bs.length)) ∧
    h.bytesAt handle bs.length = some bs

theorem ChunkAt.grows {h h' : Heap} {k : StringKind} {c : Nat} {bs : List UInt8}
    (hc : h.ChunkAt k c bs) (g : h.Grows h') : h'.ChunkAt k c bs := by
  obtain ⟨handle, hd, hb⟩ := hc
  exact ⟨handle, (item?_congr (g.old c (lt_next_of_isSome (isSome_mem_of_item? hd))).1).trans hd,
    g.bytesAt hb⟩

end Libcbor.Heap

namespace Libcbor.Collapse

open Heap Ops Unfold Own CopyDefinite CopySpec

variable {w f : Nat} {h H : Heap} {k : StringKind} {p c : Nat} {cs : List Nat}
  {bs : List UInt8} {bss : List (List UInt8)} {t : Item} {ts : List Item}

theorem chunkBytes_eq_some : chunkBytes k t = some bs ↔ t = .bytes k bs := by
  cases t <;> simp [chunkBytes]

/-- Only a definite string's buffer unfolds to bytes. -/
theorem node_eq_some_bytes {d : ItemData} (hn : h.node d ts = some (.bytes k bs)) :
    ∃ handle, d = .str k (.definite handle bs.length) ∧ h.bytesAt handle bs.length = some bs := by
  match d, ts, hn with
  | .str _ (.definite _ _), _, hn =>
    obtain ⟨bs', hbs, e⟩ := Option.map_eq_some'.mp hn
    cases e
    obtain rfl := bytesAt_length hbs
    exact ⟨_, rfl, hbs⟩
  | .str _ (.indefinite _), _, hn => simp [node, treeNode] at hn
  | .uint _, _, hn | .negint _, _, hn | .floatCtrl _, _, hn | .array _ _, _, hn => cases hn
  | .map _ _, _, hn => simp only [node, treeNode] at hn; split_ifs at hn; simp at hn
  | .tag _ none, _, hn => cases hn
  | .tag _ (some _), [], hn | .tag _ (some _), [_], hn | .tag _ (some _), _ :: _ :: _, hn => cases hn

/-- Only an indefinite string unfolds to chunks. -/
theorem node_eq_some_chunked {d : ItemData} (hn : h.node d ts = some (.chunked k bss)) :
    ∃ cs, d = .str k (.indefinite cs) ∧ ts.mapM (chunkBytes k) = some bss := by
  match d, ts, hn with
  | .str _ (.definite _ _), _, hn => simp [node] at hn
  | .str _ (.indefinite cs), _, hn =>
    obtain ⟨bss', hbs, e⟩ := Option.map_eq_some'.mp hn
    cases e
    exact ⟨cs, rfl, hbs⟩
  | .uint _, _, hn | .negint _, _, hn | .floatCtrl _, _, hn | .array _ _, _, hn => cases hn
  | .map _ _, _, hn => simp only [node, treeNode] at hn; split_ifs at hn; simp at hn
  | .tag _ none, _, hn => cases hn
  | .tag _ (some _), [], hn | .tag _ (some _), [_], hn | .tag _ (some _), _ :: _ :: _, hn => cases hn

theorem chunkAt_of_unfold (hu : h.unfold f c = some t) (hb : chunkBytes k t = some bs) :
    h.ChunkAt k c bs := by
  cases f with
  | zero => simp [unfold] at hu
  | succ f =>
    obtain ⟨d, ts, hd, -, hn⟩ := item?_of_unfold hu
    rw [chunkBytes_eq_some.mp hb] at hn
    obtain ⟨handle, rfl, hbs⟩ := node_eq_some_bytes hn
    exact ⟨handle, hd, hbs⟩

theorem chunksAt_of_unfoldAll (hts : unfoldAll (h.unfold f) cs = some ts)
    (hbs : ts.mapM (chunkBytes k) = some bss) : List.Forall₂ (h.ChunkAt k) cs bss := by
  induction cs generalizing ts bss with
  | nil =>
    obtain rfl : ts = [] := by simpa [unfoldAll] using hts.symm
    cases hbs
    exact .nil
  | cons c cs ih =>
    obtain ⟨t, ts', hc, hts', rfl⟩ := unfoldAll_cons_eq_some.mp hts
    simp only [List.mapM_cons, Option.bind_eq_bind, Option.bind_eq_some, Option.pure_def,
      Option.some.injEq] at hbs
    obtain ⟨bs, hb, bss', hbss', rfl⟩ := hbs
    exact .cons (chunkAt_of_unfold hc hb) (ih hts' hbss')

/-- A chunked string that unfolds is an indefinite string whose chunks hold its bytes. -/
theorem chunked_of_unfold (hu : h.unfold f p = some (.chunked k bss)) :
    ∃ cs, h.item? p = some (.str k (.indefinite cs)) ∧ List.Forall₂ (h.ChunkAt k) cs bss := by
  cases f with
  | zero => simp [unfold] at hu
  | succ f =>
    obtain ⟨d, ts, hd, hts, hn⟩ := item?_of_unfold hu
    obtain ⟨cs, rfl, hbs⟩ := node_eq_some_chunked hn
    exact ⟨cs, hd, chunksAt_of_unfoldAll hts hbs⟩

theorem chunkData_eq (hc : h.ChunkAt k c bs) :
    ∃ handle, chunkData k c h = .ok ((handle, bs.length), h) ∧
      h.bytesAt handle bs.length = some bs := by
  obtain ⟨handle, hd, hb⟩ := hc
  exact ⟨handle, by simp [chunkData, Mem.bind_apply, getItem_eq hd], hb⟩

/-- The first loop sums the chunk lengths modulo `2 ^ w`. -/
theorem totalLength_eq (hcs : List.Forall₂ (h.ChunkAt k) cs bss) {total : Nat}
    (ht : total < 2 ^ w) :
    totalLength w k total cs h = .ok ((total + bss.flatten.length) % 2 ^ w, h) := by
  induction hcs generalizing total with
  | nil => simp [totalLength, Nat.mod_eq_of_lt ht]
  | cons hc _ ih =>
    obtain ⟨handle, hd, -⟩ := chunkData_eq hc
    rw [totalLength, Mem.bind_ok hd]
    dsimp only
    rw [ih (Nat.mod_lt _ (Nat.two_pow_pos w)), Nat.mod_add_mod]
    simp only [List.flatten_cons, List.length_append, Nat.add_assoc]

theorem alloc_mem_next {b : Block} {rc : Nat} : (H.alloc b rc).mem H.next = some b := by simp

theorem writeBytes_length {buf : List UInt8} {offset : Nat} (hle : offset + bs.length ≤ buf.length) :
    (writeBytes buf offset bs).length = buf.length := by
  simp [writeBytes]; omega

theorem writeBytes_replicate (pre : List UInt8) (n : Nat) :
    writeBytes (pre ++ List.replicate (bs.length + n) 0) pre.length bs =
      pre ++ bs ++ List.replicate n 0 := by
  rw [writeBytes, List.take_left' rfl, List.replicate_add, ← List.append_assoc,
    List.drop_left' (by simp)]

/-- Below `2 ^ w`, the second loop writes each chunk's bytes after the ones before it. -/
theorem copyChunks_fits (hcs : List.Forall₂ (H.ChunkAt k) cs bss) (pre : List UInt8)
    (hw : pre.length + bss.flatten.length < 2 ^ w) :
    copyChunks w k H.next pre.length cs
        (H.alloc (.bytes (pre ++ List.replicate bss.flatten.length 0)) 0) =
      .ok ((), H.alloc (.bytes (pre ++ bss.flatten)) 0) := by
  induction hcs generalizing pre with
  | nil => simp [copyChunks]
  | @cons c bs cs bss hc _ ih =>
    obtain ⟨handle, hd, hb⟩ := chunkData_eq (hc.grows (grows_alloc H _ 0))
    simp only [List.flatten_cons, List.length_append] at hw ⊢
    rw [copyChunks, Mem.bind_ok hd]
    dsimp only
    rw [Mem.bind_ok (memcpy_ok hb alloc_mem_next (by simp)), modify_alloc_next, writeBytes_replicate,
      Nat.mod_eq_of_lt (by omega), ← List.length_append, ih _ (by rw [List.length_append]; omega)]
    simp

/-- Past `2 ^ w`, the buffer is shorter than the chunks' bytes: some `memcpy` overruns it. -/
theorem copyChunks_outOfBounds (hcs : List.Forall₂ (H.ChunkAt k) cs bss) {offset : Nat}
    {buf : List UInt8} (ho : offset ≤ buf.length) (hw : buf.length < 2 ^ w)
    (hlt : buf.length < offset + bss.flatten.length) :
    copyChunks w k H.next offset cs (H.alloc (.bytes buf) 0) = .error .outOfBounds := by
  induction hcs generalizing offset buf with
  | nil => simp at hlt; omega
  | @cons c bs cs bss hc _ ih =>
    obtain ⟨handle, hd, hb⟩ := chunkData_eq (hc.grows (grows_alloc H _ 0))
    simp only [List.flatten_cons, List.length_append] at hlt
    rw [copyChunks, Mem.bind_ok hd]
    dsimp only
    by_cases hle : offset + bs.length ≤ buf.length
    · rw [Mem.bind_ok (memcpy_ok hb alloc_mem_next hle), modify_alloc_next,
        Nat.mod_eq_of_lt (by omega)]
      exact ih (by rw [writeBytes_length hle]; omega) (by rw [writeBytes_length hle]; omega)
        (by rw [writeBytes_length hle]; omega)
    · exact Mem.bind_error (by simp [memcpy, hb, hle])

theorem bytesAt_of_mem {b n : Nat} (hm : h.mem b = some (.bytes bs)) (hn : bs.length = n) :
    h.bytesAt (some b) n = some bs := by
  subst hn
  unfold bytesAt
  split_ifs with h0
  · rw [List.length_eq_zero.mp h0]
  · simp [hm]

/-- Below `2 ^ w` and with the buffer allocated, both loops leave the chunks' bytes in it. -/
theorem collapseChunks_eq (hcs : List.Forall₂ (h.ChunkAt k) cs bss)
    (hw : bss.flatten.length < 2 ^ w) (hx : h.allocFails h.calls = false) :
    collapseChunks w k cs h = (do
      let res ← newDefiniteStr k
      setHandle res h.next bss.flatten.length
      return res) (h.alloc (.bytes bss.flatten) 0) := by
  have hcpy : copyChunks w k h.next ([] : List UInt8).length cs
      (h.alloc (.bytes ([] ++ List.replicate bss.flatten.length 0)) 0) =
      .ok ((), h.alloc (.bytes ([] ++ bss.flatten)) 0) := copyChunks_fits hcs [] (by simpa using hw)
  simp only [List.length_nil, List.nil_append] at hcpy
  rw [collapseChunks, Mem.bind_ok (totalLength_eq hcs (Nat.two_pow_pos w)), Nat.zero_add,
    Nat.mod_eq_of_lt hw]
  simp only [cborMalloc, Mem.bind_apply, allocBlock_ok hx, hcpy]

theorem collapseChunks_fails (hcs : List.Forall₂ (h.ChunkAt k) cs bss)
    (hx : h.allocFails h.calls = true) : collapseChunks w k cs h = .ok (none, h.tick) := by
  simp only [collapseChunks, Mem.bind_apply, totalLength_eq hcs (Nat.two_pow_pos w), cborMalloc,
    allocBlock_fails hx, Mem.pure_apply]

/-- Below `2 ^ w`, when the buffer is allocated and the new string is not, the collapse
hands `NULL` to `set_handle`. -/
theorem collapseChunks_null (hcs : List.Forall₂ (h.ChunkAt k) cs bss)
    (hw : bss.flatten.length < 2 ^ w) (hx : h.allocFails h.calls = false)
    (hy : h.allocFails (h.calls + 1) = true) : collapseChunks w k cs h = .error .nullItem := by
  rw [collapseChunks_eq hcs hw hx]
  simp [newDefiniteStr, newItem, Mem.bind_apply, Mem.map_apply,
    allocBlock_fails (show (h.alloc (.bytes bss.flatten) 0).allocFails (h.calls + 1) = true from hy),
    setHandle]

/-- Past `2 ^ w`, once the buffer is allocated, the collapse overruns it. -/
theorem collapseChunks_wrap (hcs : List.Forall₂ (h.ChunkAt k) cs bss)
    (hw : 2 ^ w ≤ bss.flatten.length) (hx : h.allocFails h.calls = false) :
    collapseChunks w k cs h = .error .outOfBounds := by
  have hlt := Nat.mod_lt bss.flatten.length (Nat.two_pow_pos w)
  have hcpy : copyChunks w k h.next 0 cs
      (h.alloc (.bytes (List.replicate (bss.flatten.length % 2 ^ w) 0)) 0) =
      .error .outOfBounds :=
    copyChunks_outOfBounds hcs (Nat.zero_le _) (by rwa [List.length_replicate])
      (by rw [List.length_replicate]; omega)
  rw [collapseChunks, Mem.bind_ok (totalLength_eq hcs (Nat.two_pow_pos w)), Nat.zero_add]
  simp only [cborMalloc, Mem.bind_apply, allocBlock_ok hx, hcpy]

/-- Below `2 ^ w` the collapse copies the chunks' bytes into one new definite string, or
returns `NULL` when the buffer cannot be allocated, or hands a `NULL` string to
`set_handle` when the string cannot be. -/
theorem collapseChunks_fits (hcs : List.Forall₂ (h.ChunkAt k) cs bss)
    (hw : bss.flatten.length < 2 ^ w) :
    CopyOutcome (fun e => e = .nullItem ∧ ¬ h.NoFail) (f + 1) h (.bytes k bss.flatten)
      (collapseChunks w k cs h) := by
  cases hx : h.allocFails h.calls
  · cases hy : h.allocFails (h.calls + 1)
    · rw [collapseChunks_eq hcs hw hx]
      have hd : ((h.alloc (.bytes bss.flatten) 0).alloc (.item (.str k (.definite none 0))) 1).item?
          (h.next + 1) = some (.str k (.definite none 0)) := item?_alloc_next
      simp only [newDefiniteStr, newItem, Mem.bind_apply, alloc_next, allocBlock_ok
        (show (h.alloc (.bytes bss.flatten) 0).allocFails (h.calls + 1) = false from hy),
        setHandle, getItem_eq hd, setItem_apply, Mem.pure_apply]
      rw [show h.next + 1 = (h.alloc (.bytes bss.flatten) 0).next from rfl, modify_alloc_next]
      refine ⟨Adds.buffer_alloc rfl rfl, ?_⟩
      have hm : ((h.alloc (.bytes bss.flatten) 0).alloc
          (.item (.str k (.definite (some h.next) bss.flatten.length))) 1).mem h.next =
          some (.bytes bss.flatten) := by
        simp [Function.update_noteq (show h.next ≠ h.next + 1 by omega)]
      simp only [unfold_succ, item?_alloc_next, Option.some_bind, ItemData.children, unfoldAll, node,
        bytesAt_of_mem hm rfl, Option.map_some']
    · rw [collapseChunks_null hcs hw hx hy]
      exact ⟨rfl, fun hnf => by simp [hnf (h.calls + 1) (Nat.le_succ _)] at hy⟩
  · rw [collapseChunks_fails hcs hx]
    exact .of_fails hx

/-- The collapse on any chunks: a copy, `NULL` with nothing left behind, a `NULL` handed to
`set_handle` after a failed allocation, or an overrun when the lengths reach `2 ^ w`. -/
theorem collapseChunks_outcome (hcs : List.Forall₂ (h.ChunkAt k) cs bss) :
    CopyOutcome (fun e => (e = .nullItem ∧ ¬ h.NoFail) ∨
        (e = .outOfBounds ∧ 2 ^ w ≤ bss.flatten.length))
      (f + 1) h (.bytes k bss.flatten) (collapseChunks w k cs h) := by
  by_cases hw : bss.flatten.length < 2 ^ w
  · exact (collapseChunks_fits hcs hw).mono fun _ => .inl
  · cases hx : h.allocFails h.calls
    · rw [collapseChunks_wrap hcs (by omega) hx]
      exact .inr ⟨rfl, by omega⟩
    · rw [collapseChunks_fails hcs hx]
      exact .of_fails hx

end Libcbor.Collapse
