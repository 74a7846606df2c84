import Libcbor.Load

/-! Every run of `cbor_load`, for any decoder that keeps its contract and any effect of the
callbacks on the stack, the flags and the rest of the state. The loop calls the decoder at
most once per byte, in byte order, always on the rest of the source from what has been read
and with the context the call before left; `read` is the sum of the finished reads and never
passes the source's length; and the call either returns the root once the stack is empty,
after a run in which no sticky flag was ever set, or returns `NULL` with the error at `read`,
having released every frame left on the stack. -/
namespace Libcbor

variable {σ : Type} (decref : Nat → σ → σ)

/-- What a call consumed: its read count if it finished, nothing otherwise. -/
def DecodeCall.consumed (c : DecodeCall σ) : Nat :=
  if c.result.status = .finished then c.result.read else 0

/-- A call after which the loop goes on: it finished and neither sticky flag is set. -/
def DecodeCall.Continues (c : DecodeCall σ) : Prop :=
  c.result.status = .finished ∧ c.context.creationFailed = false ∧ c.context.syntaxError = false

/-- A run that returned the root: every call went on, and the last left the stack empty. -/
def LoadOutcome.Returned (o : LoadOutcome σ) (last : DecoderContext × σ) : Prop :=
  o.item = last.1.root ∧ o.result.error.code = .none ∧ last.1.stack = [] ∧ o.state = last.2 ∧
    ∀ c ∈ o.calls, c.Continues

/-- A run that failed: `NULL`, an error at what was read, and the frames left on the stack
released from the top, the item of each by exactly one `cbor_decref`. -/
def LoadOutcome.Failed (o : LoadOutcome σ) (last : DecoderContext × σ) : Prop :=
  o.item = none ∧ o.result.error.code ≠ .none ∧ o.result.error.position = o.result.read ∧
    o.state = (last.1.stack.map (·.item)).foldl (fun s p => decref p s) last.2

end Libcbor

namespace Libcbor.LoadCorrect

open Load

variable {σ : Type} (D : StreamDecoder σ) (decref : Nat → σ → σ)

/-- The sum of what the calls consumed. -/
def finishedReads : List (DecodeCall σ) → Nat
  | [] => 0
  | c :: cs => c.consumed + finishedReads cs

/-- The context and state the last call left, or those the loop started from. -/
def lastCall (ctx : DecoderContext) (s : σ) : List (DecodeCall σ) → DecoderContext × σ
  | [] => (ctx, s)
  | c :: cs => lastCall c.context c.state cs

/-- The calls are a run of the decoder: each on the source from what had been read, with the
context and state the one before left. -/
def IsTrace (source : List UInt8) : Nat → DecoderContext → σ → List (DecodeCall σ) → Prop
  | _, _, _, [] => True
  | read, ctx, s, c :: cs => c.offset = read ∧ c.window = source.drop read ∧
      D.decode (source.drop read) ctx s = (c.result, c.context, c.state) ∧
      IsTrace source (read + c.result.read) c.context c.state cs

/-- One round of the loop: no call once the source is used up; otherwise one call, after
which the loop fails, returns or goes on. -/
theorem loadLoop_cases (source : List UInt8) (read : Nat) (ctx : DecoderContext) (s : σ) :
    (source.length ≤ read ∧
      loadLoop D decref source read ctx s = loadError decref .notEnoughData read ctx.stack s) ∨
    ∃ c : DecodeCall σ, read < source.length ∧ c.offset = read ∧ c.window = source.drop read ∧
      D.decode (source.drop read) ctx s = (c.result, c.context, c.state) ∧
      ((¬ c.Continues ∧ ∃ code, code ≠ .none ∧
          (c.result.status = .neData → code = .notEnoughData) ∧
          loadLoop D decref source read ctx s =
            (loadError decref code (read + c.consumed) c.context.stack c.state).after c) ∨
       (c.Continues ∧ c.context.stack = [] ∧ loadLoop D decref source read ctx s =
          ⟨c.context.root, ⟨⟨0, .none⟩, read + c.result.read⟩, [], c.state, [c]⟩) ∨
       (c.Continues ∧ c.context.stack ≠ [] ∧ loadLoop D decref source read ctx s =
          (loadLoop D decref source (read + c.result.read) c.context c.state).after c)) := by
  by_cases hlt : read < source.length
  · right
    rcases hd : D.decode (source.drop read) ctx s with ⟨res, ctx', s'⟩
    refine ⟨⟨read, source.drop read, res, ctx', s'⟩, hlt, rfl, rfl, rfl, ?_⟩
    rw [loadLoop, dif_pos hlt]
    split
    rename_i res₁ ctx₁ s₁ hd₁
    rw [hd] at hd₁
    cases hd₁
    have hstop : res.status ≠ .finished →
        ¬ DecodeCall.Continues ⟨read, source.drop read, res, ctx', s'⟩ := fun h hc => h hc.1
    rcases hst : res.status with _ | _ | _ <;> simp only [hst]
    · cases hcf : ctx'.creationFailed
      · cases hse : ctx'.syntaxError
        · by_cases hnil : ctx'.stack = []
          · exact .inr (.inl ⟨⟨hst, hcf, hse⟩, hnil, by simp [hcf, hse, hnil]⟩)
          · exact .inr (.inr ⟨⟨hst, hcf, hse⟩, hnil, by simp [hcf, hse, hnil]⟩)
        · exact .inl ⟨fun hc => (nomatch hse.symm.trans hc.2.2), .syntaxError, by decide, nofun,
            by simp [hcf, hse, DecodeCall.consumed, hst]⟩
      · exact .inl ⟨fun hc => (nomatch hcf.symm.trans hc.2.1), .memError, by decide, nofun,
          by simp [hcf, DecodeCall.consumed, hst]⟩
    · exact .inl ⟨hstop (by simp [hst]), .notEnoughData, by decide, fun _ => rfl,
        by simp [DecodeCall.consumed, hst]⟩
    · exact .inl ⟨hstop (by simp [hst]), .malformated, by decide, nofun,
        by simp [DecodeCall.consumed, hst]⟩
  · exact .inl ⟨by omega, by rw [loadLoop, dif_neg hlt]⟩

/-- The call made at `read` is the one the decoder's answer there determines. -/
theorem call_eq {source : List UInt8} {read : Nat} {ctx : DecoderContext} {s : σ}
    {c c' : DecodeCall σ} (hoff : c.offset = read) (hwin : c.window = source.drop read)
    (hd : D.decode (source.drop read) ctx s = (c.result, c.context, c.state))
    (hoff' : c'.offset = read) (hwin' : c'.window = source.drop read)
    (hd' : D.decode (source.drop read) ctx s = (c'.result, c'.context, c'.state)) : c' = c := by
  rw [hd, Prod.mk.injEq, Prod.mk.injEq] at hd'
  obtain ⟨h₁, h₂, h₃⟩ := hd'
  exact DecodeCall.ext (hoff'.trans hoff.symm) (hwin'.trans hwin.symm) h₁.symm h₂.symm h₃.symm

/-- A call after which the loop goes on: the root is returned if the stack is empty, and
the loop runs on from what the call read otherwise. -/
theorem loadLoop_continues {source : List UInt8} {read : Nat} {ctx : DecoderContext} {s : σ}
    {c : DecodeCall σ} (hlt : read < source.length) (hoff : c.offset = read)
    (hwin : c.window = source.drop read)
    (hd : D.decode (source.drop read) ctx s = (c.result, c.context, c.state)) (hc : c.Continues) :
    (c.context.stack = [] → loadLoop D decref source read ctx s =
      ⟨c.context.root, ⟨⟨0, .none⟩, read + c.result.read⟩, [], c.state, [c]⟩) ∧
    (c.context.stack ≠ [] → loadLoop D decref source read ctx s =
      (loadLoop D decref source (read + c.result.read) c.context c.state).after c) := by
  rcases loadLoop_cases D decref source read ctx s with ⟨hle, -⟩ | ⟨c', -, hoff', hwin', hd', hcs⟩
  · omega
  · obtain rfl := call_eq D hoff hwin hd hoff' hwin' hd'
    rcases hcs with ⟨hn, -⟩ | ⟨-, hnil, e⟩ | ⟨-, hnil, e⟩
    · exact absurd hc hn
    · exact ⟨fun _ => e, fun h => absurd hnil h⟩
    · exact ⟨fun h => absurd h hnil, fun _ => e⟩

/-- A call that asks for more data ends the run with `CBOR_ERR_NOTENOUGHDATA` at `read`. -/
theorem loadLoop_neData {source : List UInt8} {read : Nat} {ctx : DecoderContext} {s : σ}
    {c : DecodeCall σ} (hlt : read < source.length) (hoff : c.offset = read)
    (hwin : c.window = source.drop read)
    (hd : D.decode (source.drop read) ctx s = (c.result, c.context, c.state))
    (hs : c.result.status = .neData) :
    loadLoop D decref source read ctx s =
      (loadError decref .notEnoughData read c.context.stack c.state).after c := by
  rcases loadLoop_cases D decref source read ctx s with ⟨hle, -⟩ | ⟨c', -, hoff', hwin', hd', hcs⟩
  · omega
  · obtain rfl := call_eq D hoff hwin hd hoff' hwin' hd'
    have hfin : c'.result.status ≠ .finished := by rw [hs]; nofun
    rcases hcs with ⟨-, code, -, hcode, e⟩ | ⟨hc, -⟩ | ⟨hc, -⟩
    · rwa [hcode hs, DecodeCall.consumed, if_neg hfin, Nat.add_zero] at e
    · exact absurd hc.1 hfin
    · exact absurd hc.1 hfin

/-- A call consumes no more than the rest of the source. -/
theorem consumed_le {source : List UInt8} {read : Nat} {ctx : DecoderContext} {s : σ}
    {c : DecodeCall σ} (hd : D.decode (source.drop read) ctx s = (c.result, c.context, c.state)) :
    c.consumed ≤ source.length - read := by
  unfold DecodeCall.consumed
  split_ifs with hf
  · have hr := D.finished_read (source.drop read) ctx s
    rw [hd] at hr
    simpa using (hr hf).2
  · exact Nat.zero_le _

/-- A call after which the loop goes on consumed at least one byte. -/
theorem one_le_read {source : List UInt8} {read : Nat} {ctx : DecoderContext} {s : σ}
    {c : DecodeCall σ} (hd : D.decode (source.drop read) ctx s = (c.result, c.context, c.state))
    (hc : c.Continues) : 1 ≤ c.result.read ∧ c.consumed = c.result.read := by
  have hr := D.finished_read (source.drop read) ctx s
  rw [hd] at hr
  exact ⟨(hr hc.1).1, if_pos hc.1⟩

/-- What a run of the loop from `read` bytes, context `ctx` and state `s` does. -/
structure LoopSpec (source : List UInt8) (read : Nat) (ctx : DecoderContext) (s : σ)
    (o : LoadOutcome σ) : Prop where
  calls_length : o.calls.length ≤ source.length - read
  calls_offset : ∀ c ∈ o.calls, read ≤ c.offset ∧ c.offset < source.length
  ordered : o.calls.Pairwise fun c c' => c.offset < c'.offset
  trace : IsTrace D source read ctx s o.calls
  result_read : o.result.read = read + finishedReads o.calls
  read_le : read ≤ source.length → o.result.read ≤ source.length
  stack : o.stack = []
  ends : o.Returned (lastCall ctx s o.calls) ∨ o.Failed decref (lastCall ctx s o.calls)

theorem loopSpec (source : List UInt8) (read : Nat) (ctx : DecoderContext) (s : σ) :
    LoopSpec D decref source read ctx s (loadLoop D decref source read ctx s) := by
  rcases loadLoop_cases D decref source read ctx s with
    ⟨hle, e⟩ | ⟨c, hlt, hoff, hwin, hd, ⟨-, code, hcode, -, e⟩ | ⟨hc, hnil, e⟩ | ⟨hc, hnil, e⟩⟩ <;>
    rw [e]
  · -- the source is used up before a call
    refine ⟨by simp [loadError], by simp [loadError], .nil, trivial,
      by simp [loadError, finishedReads],
      fun h => by simpa [loadError] using h, rfl, .inr ⟨rfl, by simp [loadError], rfl, freeStack_eq_foldl decref _ _⟩⟩
  · -- the call fails
    have hle := consumed_le D hd
    refine ⟨by simp [loadError]; omega, ?_, List.pairwise_singleton _ _, ?_,
      by simp [loadError, finishedReads],
      fun _ => by simp only [loadError, LoadOutcome.after]; omega, rfl, .inr ⟨rfl, hcode, rfl, freeStack_eq_foldl decref _ _⟩⟩
    · simp only [loadError, LoadOutcome.after, List.mem_singleton]
      rintro _ rfl
      exact ⟨hoff.ge, hoff ▸ hlt⟩
    · simp only [loadError, LoadOutcome.after, IsTrace]
      exact ⟨hoff, hwin, hd, trivial⟩
  · -- the call leaves the stack empty: the root is returned
    obtain ⟨h1, hcons⟩ := one_le_read D hd hc
    have hle := consumed_le D hd
    refine ⟨by simp; omega, ?_, List.pairwise_singleton _ _, ⟨hoff, hwin, hd, trivial⟩,
      by simp [finishedReads, hcons],
      fun _ => by simp only; omega, rfl, .inl ⟨rfl, rfl, hnil, rfl, by simpa using hc⟩⟩
    simp only [List.mem_singleton]
    rintro _ rfl
    exact ⟨hoff.ge, hoff ▸ hlt⟩
  · -- the loop goes on
    obtain ⟨h1, hcons⟩ := one_le_read D hd hc
    have hle := consumed_le D hd
    have ih := loopSpec source (read + c.result.read) c.context c.state
    refine ⟨by simp only [LoadOutcome.after, List.length_cons]; have := ih.calls_length; omega,
      ?_, List.pairwise_cons.mpr ⟨fun c' hc' => ?_, ih.ordered⟩, ?_,
      by simp [ih.result_read, finishedReads, hcons]; omega,
      fun _ => ih.read_le (by omega), ih.stack, ?_⟩
    · simp only [LoadOutcome.after, List.mem_cons]
      rintro c' (rfl | hc')
      · exact ⟨hoff.ge, hoff ▸ hlt⟩
      · have := ih.calls_offset c' hc'
        exact ⟨by omega, this.2⟩
    · -- every later call begins after this one's bytes
      have := (ih.calls_offset c' hc').1
      omega
    · simp only [LoadOutcome.after, IsTrace]
      exact ⟨hoff, hwin, hd, ih.trace⟩
    · rcases ih.ends with ⟨h₁, h₂, h₃, h₄, h₅⟩ | hf
      · exact .inl ⟨h₁, h₂, h₃, h₄, by simpa using ⟨hc, h₅⟩⟩
      · exact .inr hf
termination_by source.length - read
decreasing_by
  have := (one_le_read D hd hc).1
  omega

/-- `cbor_load` on a non-empty source is a run of the loop from nothing read, a fresh
context and the caller's state. -/
theorem cborLoad_run {source : List UInt8} (result : CborLoadResult) (s : σ)
    (hn : 0 < source.length) :
    LoopSpec D decref source 0 ⟨false, false, none, []⟩ s (cborLoad D decref source result s) := by
  rw [cborLoad_of_ne D decref (Nat.pos_iff_ne_zero.mp hn)]
  exact loopSpec D decref source 0 _ s

/-- The array of `arrayDecoder` cut inside its integer, with a `cbor_decref` that logs the
items it is given: the run makes two calls and releases the one frame left, once. -/
theorem cborLoad_run_cut :
    0 < ([0x81, 0x18] : List UInt8).length ∧
    LoopSpec arrayDecoder (fun p s => p :: s) [0x81, 0x18] 0 ⟨false, false, none, []⟩ ([] : List Nat)
      (cborLoad arrayDecoder (fun p s => p :: s) [0x81, 0x18] ⟨⟨0, .none⟩, 0⟩ []) ∧
    (cborLoad arrayDecoder (fun p s => p :: s) [0x81, 0x18] ⟨⟨0, .none⟩, 0⟩ []).calls.length = 2 ∧
    (cborLoad arrayDecoder (fun p s => p :: s) [0x81, 0x18] ⟨⟨0, .none⟩, 0⟩ []).state = [0] :=
  ⟨by decide, cborLoad_run arrayDecoder _ _ [] (by decide), by rw [cborLoad_array_cut]; rfl,
    by rw [cborLoad_array_cut]⟩

end Libcbor.LoadCorrect
