import Libcbor.LoadCorrect
import Libcbor.Fresh

/-! `cbor_load` over the heap of items. The program state is the heap, or the fault an
earlier operation hit, and the error exit calls `cbor_decref` of the heap model on each frame
left on the stack. When the frames own every block the decoder's callbacks allocated (fresh
trees over the heap the load started from), a failed load leaks nothing: it returns `NULL`
and leaves exactly the contents and counts it started with. -/
namespace Libcbor.LoadRelease

open Heap Ops Load LoadCorrect

/-- `cbor_decref` as the error exit of `cbor_load` calls it: on the heap, or passing on the
fault an earlier call hit. -/
def heapDecref (p : Nat) (s : Except Fault Heap) : Except Fault Heap :=
  s.bind fun h => (cborDecref p h).map Prod.snd

variable {h₀ h : Heap} {f : Nat}

/-- The stack loop of the error exit releases fresh trees, one `cbor_decref` per frame, and
returns the heap to what it was before they were built. -/
theorem freeStack_heapDecref : ∀ {stack : List StackRecord} {h : Heap},
    h₀.Adds f h (stack.map (·.item)) → (∀ r ∈ stack, h.live f r.item = true) →
    f ≤ h.next → ∃ h', freeStack heapDecref stack (.ok h) = .ok h' ∧ h₀.Alike h'
  | [], h, ha, _, _ => ⟨h, rfl, ha.alike_of_nil⟩
  | r :: rs, h, ha, hl, hf => by
    obtain ⟨h', hd, ha', hframe, hnext⟩ := ha.decref_cons (hl r (List.mem_cons_self r rs)) hf
    have hrest : ∀ r' ∈ rs, h'.live f r'.item = true := fun r' hr' =>
      (live_congr (hframe r'.item (List.mem_map_of_mem _ hr'))).trans
        (hl r' (List.mem_cons_of_mem r hr'))
    have hstep : heapDecref r.item (.ok h) = .ok h' := by
      simp only [heapDecref, Except.bind, hd]
      rfl
    rw [freeStack, hstep]
    exact freeStack_heapDecref ha' hrest (hnext ▸ hf)

/-- A failed `cbor_load` leaks nothing. Whatever the decoder and its callbacks do, if the
frames left on the stack after the last call are fresh trees over the heap the load started
from, owned by the stack alone and live (complete or not: a tag still without its item, a
map awaiting a value), then a load that reports an error returns `NULL` and leaves every
item's contents and reference count as they were before the load. -/
theorem cborLoad_error_releases (D : StreamDecoder (Except Fault Heap)) {source : List UInt8}
    {result : CborLoadResult} {ctx : DecoderContext}
    (hlast : lastCall ⟨false, false, none, []⟩ (.ok h₀)
      (cborLoad D heapDecref source result (.ok h₀)).calls = (ctx, .ok h))
    (hadds : h₀.Adds f h (ctx.stack.map (·.item)))
    (hl : ∀ r ∈ ctx.stack, h.live f r.item = true) (hf : f ≤ h.next)
    (hfail : (cborLoad D heapDecref source result (.ok h₀)).result.error.code ≠ .none) :
    (cborLoad D heapDecref source result (.ok h₀)).item = none ∧
      ∃ h', (cborLoad D heapDecref source result (.ok h₀)).state = .ok h' ∧ h₀.Alike h' := by
  by_cases hn : source.length = 0
  · rw [cborLoad, if_pos hn]
    exact ⟨rfl, h₀, rfl, Alike.refl h₀⟩
  rw [cborLoad_of_ne D heapDecref hn] at hlast hfail ⊢
  rcases (loopSpec D heapDecref source 0 _ (.ok h₀)).ends with
    ⟨-, hcode, -⟩ | ⟨hitem, -, -, hstate⟩
  · exact absurd hcode hfail
  rw [hlast, ← freeStack_eq_foldl] at hstate
  obtain ⟨h', hfree, hA⟩ := freeStack_heapDecref hadds hl hf
  exact ⟨hitem, h', hstate.trans hfree, hA⟩

/-- A start callback of the builder, for the examples: a new item `d` pushed on the stack to
wait for its contents, or a failed creation. It reads one header byte. -/
def pushNew (d : ItemData) (ctx : DecoderContext) (h : Heap) :
    DecoderResult × DecoderContext × Except Fault Heap :=
  match newItem d h with
  | .ok (some p, h') => (⟨1, .finished⟩, { ctx with stack := ⟨p⟩ :: ctx.stack }, .ok h')
  | .ok (none, h') => (⟨1, .finished⟩, { ctx with creationFailed := true }, .ok h')
  | .error e => (⟨1, .finished⟩, ctx, .error e)

theorem pushNew_result (d : ItemData) (ctx : DecoderContext) (h : Heap) :
    (pushNew d ctx h).1 = ⟨1, .finished⟩ := by
  unfold pushNew
  split <;> rfl

/-- A decoder for the examples: a header `0x9f` starts an indefinite array and a header `0xc1`
a tag of value `1`, each pushed by `pushNew`; any other header is malformed. -/
def heapDecoder : StreamDecoder (Except Fault Heap) where
  decode w ctx s :=
    match w, s with
    | b :: _, .ok h =>
      if b = 0x9f then pushNew (.array .indefinite []) ctx h
      else if b = 0xc1 then pushNew (.tag 1 none) ctx h
      else (⟨0, .error⟩, ctx, .ok h)
    | _, s => (⟨0, .error⟩, ctx, s)
  finished_read w ctx s hs := by
    rcases w with _ | ⟨b, w⟩ <;> rcases s with e | h <;> simp only at hs ⊢ <;> try cases hs
    split_ifs at hs ⊢ <;> simp_all [pushNew_result]

def emptyHeap : Heap := .ofBlocks [] fun _ => false

/-- The array `heapDecoder` starts on `emptyHeap`. -/
def arrayHeap : Heap := emptyHeap.alloc (.item (.array .indefinite [])) 1

/-- The tag it starts next, still without its item. -/
def arrayTagHeap : Heap := arrayHeap.alloc (.item (.tag 1 none)) 1

/-- The run on an array start and a tag start, cut before the tagged item: two frames are
left on the stack, the tag on top. -/
theorem cborLoad_heapDecoder :
    cborLoad heapDecoder heapDecref [0x9f, 0xc1] ⟨⟨0, .none⟩, 0⟩ (.ok emptyHeap) =
      ⟨none, ⟨⟨2, .notEnoughData⟩, 2⟩, [], freeStack heapDecref [⟨1⟩, ⟨0⟩] (.ok arrayTagHeap),
        [⟨0, [0x9f, 0xc1], ⟨1, .finished⟩, ⟨false, false, none, [⟨0⟩]⟩, .ok arrayHeap⟩,
          ⟨1, [0xc1], ⟨1, .finished⟩, ⟨false, false, none, [⟨1⟩, ⟨0⟩]⟩, .ok arrayTagHeap⟩]⟩ := by
  rw [cborLoad_of_ne _ _ (by decide), loadLoop, dif_pos (by decide)]
  simp only [heapDecoder]
  rw [loadLoop, dif_pos (by decide)]
  simp only [heapDecoder]
  rw [loadLoop, dif_neg (by decide)]
  rfl

theorem cborLoad_error_releases_tag :
    lastCall ⟨false, false, none, []⟩ (.ok emptyHeap)
      (cborLoad heapDecoder heapDecref [0x9f, 0xc1] ⟨⟨0, .none⟩, 0⟩ (.ok emptyHeap)).calls =
        (⟨false, false, none, [⟨1⟩, ⟨0⟩]⟩, .ok arrayTagHeap) ∧
    emptyHeap.Adds 1 arrayTagHeap [1, 0] ∧
    (∀ r ∈ ([⟨1⟩, ⟨0⟩] : List StackRecord), arrayTagHeap.live 1 r.item = true) ∧
    (∀ f, arrayTagHeap.unfold f 1 = none) ∧
    (cborLoad heapDecoder heapDecref [0x9f, 0xc1] ⟨⟨0, .none⟩, 0⟩
      (.ok emptyHeap)).result.error.code = .notEnoughData ∧
    (cborLoad heapDecoder heapDecref [0x9f, 0xc1] ⟨⟨0, .none⟩, 0⟩ (.ok emptyHeap)).item = none ∧
    ∃ h', (cborLoad heapDecoder heapDecref [0x9f, 0xc1] ⟨⟨0, .none⟩, 0⟩ (.ok emptyHeap)).state =
      .ok h' ∧ emptyHeap.Alike h' :=
  have hlast : lastCall ⟨false, false, none, []⟩ (.ok emptyHeap)
      (cborLoad heapDecoder heapDecref [0x9f, 0xc1] ⟨⟨0, .none⟩, 0⟩ (.ok emptyHeap)).calls =
        (⟨false, false, none, [⟨1⟩, ⟨0⟩]⟩, .ok arrayTagHeap) := by
    rw [cborLoad_heapDecoder]; rfl
  have harray : emptyHeap.Adds 1 arrayHeap [0] := Adds.alloc_leaf rfl rfl
  have htag : arrayHeap.Adds 1 arrayTagHeap [1] := Adds.alloc_leaf rfl rfl
  have hadds : emptyHeap.Adds 1 arrayTagHeap [1, 0] := (harray.trans htag).swap
  have hl : ∀ r ∈ ([⟨1⟩, ⟨0⟩] : List StackRecord), arrayTagHeap.live 1 r.item = true := by
    decide
  have hcode : (cborLoad heapDecoder heapDecref [0x9f, 0xc1] ⟨⟨0, .none⟩, 0⟩
      (.ok emptyHeap)).result.error.code = .notEnoughData := by
    rw [cborLoad_heapDecoder]
  ⟨hlast, hadds, hl, fun f => by cases f <;> rfl, hcode,
    cborLoad_error_releases heapDecoder hlast hadds hl (by decide) (by rw [hcode]; decide)⟩

end Libcbor.LoadRelease
