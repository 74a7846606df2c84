import Mathlib.Data.List.Basic

/-! `cbor_load`: the driver that feeds a byte buffer to the streaming decoder, one item
header per call, until the builder's stack is empty. The decoder with the builder callbacks
is a parameter, a `StreamDecoder`, of which the driver needs one promise: a finished call
consumes at least one byte of its window and no more than the window. The rest of the
program state (the item heap, the allocator) is a type `σ` that the callbacks and
`cbor_decref` act on. `result->read` stays at most `source_size`, so it cannot wrap. -/
namespace Libcbor

/-- `cbor_error_code`. -/
inductive CborErrorCode
  | none
  | notEnoughData
  | noData
  | malformated
  | memError
  | syntaxError
  deriving DecidableEq, Repr

/-- `struct cbor_error`. -/
structure CborError where
  position : Nat
  code : CborErrorCode
  deriving DecidableEq, Repr

/-- `struct cbor_load_result`. -/
structure CborLoadResult where
  error : CborError
  read : Nat
  deriving DecidableEq, Repr

/-- `cbor_decoder_status`. -/
inductive DecoderStatus
  | finished
  | neData
  | error
  deriving DecidableEq, Repr

/-- `struct cbor_decoder_result`, without the `required` count `cbor_load` never reads. -/
structure DecoderResult where
  read : Nat
  status : DecoderStatus
  deriving DecidableEq, Repr

/-- `struct _cbor_stack_record`, as far as `cbor_load` reads it. -/
structure StackRecord where
  item : Nat
  deriving DecidableEq, Repr

/-- `struct _cbor_decoder_context`; the stack is listed from its top. -/
structure DecoderContext where
  creationFailed : Bool
  syntaxError : Bool
  root : Option Nat
  stack : List StackRecord
  deriving DecidableEq, Repr

/-- `cbor_stream_decode` with the builder callbacks of `cbor_load`: on a window of the source,
a context and the program state, what the call returns and the context and state it leaves.
A finished call has consumed at least one byte of the window and at most all of it. -/
structure StreamDecoder (σ : Type) where
  decode : List UInt8 → DecoderContext → σ → DecoderResult × DecoderContext × σ
  finished_read : ∀ w ctx s, (decode w ctx s).1.status = .finished →
    1 ≤ (decode w ctx s).1.read ∧ (decode w ctx s).1.read ≤ w.length

/-- One call of `cbor_stream_decode` in a run of `cbor_load`: the offset of its window, the
window, what it returned and the context and state it left. A ghost record: the C code
keeps none of it. -/
@[ext]
structure DecodeCall (σ : Type) where
  offset : Nat
  window : List UInt8
  result : DecoderResult
  context : DecoderContext
  state : σ

/-- What `cbor_load` returns, the result it writes and the state it leaves, with the ghost
list of its decoder calls. -/
structure LoadOutcome (σ : Type) where
  item : Option Nat
  result : CborLoadResult
  stack : List StackRecord
  state : σ
  calls : List (DecodeCall σ)

/-- The ghost record of a call, ahead of the run that follows it. -/
@[simp]
def LoadOutcome.after {σ : Type} (c : DecodeCall σ) (o : LoadOutcome σ) : LoadOutcome σ :=
  { o with calls := c :: o.calls }

end Libcbor

namespace Libcbor.Load

variable {σ : Type} (D : StreamDecoder σ) (decref : Nat → σ → σ)

/-- The loop of the error exit: `cbor_decref` of the top frame's item, then
`_cbor_stack_pop`, until the stack is empty. -/
def freeStack : List StackRecord → σ → σ
  | [], s => s
  | r :: rs, s => freeStack rs (decref r.item s)

/-- The stack loop applies `cbor_decref` to each frame's item once, from the top. -/
theorem freeStack_eq_foldl (stack : List StackRecord) (s : σ) :
    freeStack decref stack s = (stack.map (·.item)).foldl (fun s p => decref p s) s := by
  induction stack generalizing s with
  | nil => rfl
  | cons r rs ih => exact ih _

/-- The error exit: the position is what has been read, the stack is released. -/
def loadError (code : CborErrorCode) (read : Nat) (stack : List StackRecord) (s : σ) :
    LoadOutcome σ :=
  ⟨none, ⟨⟨read, code⟩, read⟩, [], freeStack decref stack s, []⟩

/-- The `do ... while (stack.size > 0)` loop of `cbor_load`, with `read` bytes consumed. -/
def loadLoop (source : List UInt8) (read : Nat) (ctx : DecoderContext) (s : σ) :
    LoadOutcome σ :=
  if hlt : read < source.length then
    match hd : D.decode (source.drop read) ctx s with
    | (res, ctx', s') =>
      let call : DecodeCall σ := ⟨read, source.drop read, res, ctx', s'⟩
      match hs : res.status with
      | .finished =>
        if ctx'.creationFailed then
          (loadError decref .memError (read + res.read) ctx'.stack s').after call
        else if ctx'.syntaxError then
          (loadError decref .syntaxError (read + res.read) ctx'.stack s').after call
        else if ctx'.stack = [] then
          ⟨ctx'.root, ⟨⟨0, .none⟩, read + res.read⟩, [], s', [call]⟩
        else (loadLoop source (read + res.read) ctx' s').after call
      | .neData => (loadError decref .notEnoughData read ctx'.stack s').after call
      | .error => (loadError decref .malformated read ctx'.stack s').after call
  else loadError decref .notEnoughData read ctx.stack s
termination_by source.length - read
decreasing_by
  have hr := D.finished_read (source.drop read) ctx s
  rw [hd] at hr
  have := (hr hs).1
  dsimp only at this
  omega

/-- `cbor_load`. An empty source changes only the error code of the caller's result. -/
def cborLoad (source : List UInt8) (result : CborLoadResult) (s : σ) : LoadOutcome σ :=
  if source.length = 0 then
    ⟨none, { result with error := { result.error with code := .noData } }, [], s, []⟩
  else loadLoop D decref source 0 ⟨false, false, none, []⟩ s

theorem cborLoad_of_ne {source : List UInt8} {result : CborLoadResult} {s : σ}
    (h : source.length ≠ 0) :
    cborLoad D decref source result s = loadLoop D decref source 0 ⟨false, false, none, []⟩ s :=
  if_neg h

/-- A decoder for the examples. A header `0x81` opens a definite array of one item and
pushes its frame; an unsigned integer, in its header byte or after a header `0x18` in one
more byte, completes every open array (each holds one item) and is the root when none is
open. Every item is handle `0`; the state is left as it is. -/
def arrayDecoder : StreamDecoder σ where
  decode w ctx s :=
    match w with
    | [] => (⟨0, .neData⟩, ctx, s)
    | b :: rest =>
      if b = 0x81 then (⟨1, .finished⟩, { ctx with stack := ⟨0⟩ :: ctx.stack }, s)
      else if b < 0x18 then (⟨1, .finished⟩, { ctx with stack := [], root := some 0 }, s)
      else if b = 0x18 then
        if rest = [] then (⟨0, .neData⟩, ctx, s)
        else (⟨2, .finished⟩, { ctx with stack := [], root := some 0 }, s)
      else (⟨0, .error⟩, ctx, s)
  finished_read w ctx s := by
    rcases w with _ | ⟨b, _ | ⟨b', rest⟩⟩ <;> dsimp only <;> (try split_ifs) <;> simp_all

/-- An array holding the integer `42`: two calls, the first leaving a frame on the stack. -/
theorem cborLoad_array (result : CborLoadResult) (s : σ) :
    cborLoad arrayDecoder decref [0x81, 0x18, 0x2a] result s =
      ⟨some 0, ⟨⟨0, .none⟩, 3⟩, [], s,
        [⟨0, [0x81, 0x18, 0x2a], ⟨1, .finished⟩, ⟨false, false, none, [⟨0⟩]⟩, s⟩,
          ⟨1, [0x18, 0x2a], ⟨2, .finished⟩, ⟨false, false, some 0, []⟩, s⟩]⟩ := by
  rw [cborLoad_of_ne _ _ (by decide), loadLoop, dif_pos (by decide)]
  simp only [arrayDecoder]
  rw [loadLoop, dif_pos (by simp)]
  rfl

/-- The same array cut inside its integer: the frame left on the stack is released. -/
theorem cborLoad_array_cut (result : CborLoadResult) (s : σ) :
    cborLoad arrayDecoder decref [0x81, 0x18] result s =
      ⟨none, ⟨⟨1, .notEnoughData⟩, 1⟩, [], decref 0 s,
        [⟨0, [0x81, 0x18], ⟨1, .finished⟩, ⟨false, false, none, [⟨0⟩]⟩, s⟩,
          ⟨1, [0x18], ⟨0, .neData⟩, ⟨false, false, none, [⟨0⟩]⟩, s⟩]⟩ := by
  rw [cborLoad_of_ne _ _ (by decide), loadLoop, dif_pos (by decide)]
  simp only [arrayDecoder]
  rw [loadLoop, dif_pos (by simp)]
  rfl

end Libcbor.Load
