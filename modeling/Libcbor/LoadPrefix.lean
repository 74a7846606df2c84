import Libcbor.LoadCorrect

/-! `cbor_load` on a prefix and on an extension of a source it loads completely. If the
decoder reads no byte past those it consumes, and on a shorter part of an item's bytes asks
for more data without running a callback, then cutting the source inside it fails with
`CBOR_ERR_NOTENOUGHDATA` at the start of the item that was cut, and bytes appended after it
are neither read nor an error. -/
namespace Libcbor

variable {σ : Type}

/-- What `cbor_stream_decode` promises about the bytes it reads: a finished call depends on
none past those it read, and on a non-empty part of them it asks for more data and leaves
the context and the state as they were. -/
structure StreamDecoder.Prefixed (D : StreamDecoder σ) : Prop where
  determined : ∀ w w' ctx s, (D.decode w ctx s).1.status = .finished →
    w'.take (D.decode w ctx s).1.read = w.take (D.decode w ctx s).1.read →
    D.decode w' ctx s = D.decode w ctx s
  truncated : ∀ w ctx s k, (D.decode w ctx s).1.status = .finished → 0 < k →
    k < (D.decode w ctx s).1.read →
    (D.decode (w.take k) ctx s).1.status = .neData ∧ (D.decode (w.take k) ctx s).2 = (ctx, s)

end Libcbor

namespace Libcbor.LoadPrefix

open Load LoadCorrect

variable {σ : Type} (D : StreamDecoder σ) (decref : Nat → σ → σ)

/-- Apart from a `0x18` header, the example decoder reads at most the header byte. -/
theorem arrayDecoder_read_le {b : UInt8} {rest : List UInt8} {ctx : DecoderContext} {s : σ}
    (hb : b ≠ 0x18) : ((arrayDecoder : StreamDecoder σ).decode (b :: rest) ctx s).1.read ≤ 1 := by
  simp only [arrayDecoder, hb, if_false]
  split_ifs <;> simp

/-- The example decoder reads a `0x18` header and its byte together, and on the header alone
asks for more. -/
theorem arrayDecoder_prefixed : (arrayDecoder : StreamDecoder σ).Prefixed where
  determined w w' ctx s hf ht := by
    rcases w with _ | ⟨b, rest⟩
    · exact absurd hf nofun
    by_cases hb : b = 0x18
    · -- a two-byte item: `w'` starts with the same two bytes
      rcases rest with _ | ⟨b₁, rest⟩
      · simp [arrayDecoder, hb] at hf
      rcases w' with _ | ⟨b', _ | ⟨b₁', rest'⟩⟩ <;> simp [arrayDecoder, hb] at ht
      simp [arrayDecoder, hb, ht]
    · -- a one-byte item: `w'` starts with the same byte
      have hr : (arrayDecoder.decode (b :: rest) ctx s).1.read = 1 :=
        le_antisymm (arrayDecoder_read_le hb) (arrayDecoder.finished_read _ _ _ hf).1
      rw [hr] at ht
      rcases w' with _ | ⟨b', rest'⟩ <;> simp at ht
      simp [arrayDecoder, ht, hb]
  truncated w ctx s k hf hk hkr := by
    rcases w with _ | ⟨b, rest⟩
    · exact absurd hf nofun
    by_cases hb : b = 0x18
    · rcases rest with _ | ⟨b₁, rest⟩
      · simp [arrayDecoder, hb] at hf
      simp [arrayDecoder, hb] at hkr
      obtain rfl : k = 1 := by omega
      simp [arrayDecoder, hb]
    · have : (arrayDecoder.decode (b :: rest) ctx s).1.read ≤ 1 := arrayDecoder_read_le hb
      omega

/-- `p` is the largest offset at most `k` at which one of the calls began. -/
def IsLastStart (k p : Nat) (calls : List (DecodeCall σ)) : Prop :=
  p ∈ calls.map DecodeCall.offset ∧ p ≤ k ∧ ∀ c ∈ calls, c.offset ≤ k → c.offset ≤ p

theorem IsLastStart.head {k p : Nat} {c : DecodeCall σ} {rest : List (DecodeCall σ)}
    (hoff : c.offset = p) (hk : p ≤ k) (hrest : ∀ c' ∈ rest, k < c'.offset) :
    IsLastStart k p (c :: rest) :=
  ⟨List.mem_cons.mpr (.inl hoff.symm), hk, fun c' hc' hc'k => by
    rcases List.mem_cons.mp hc' with rfl | hc'
    · exact hoff.le
    · exact absurd hc'k (Nat.not_le.mpr (hrest c' hc'))⟩

theorem IsLastStart.cons {k p : Nat} {c : DecodeCall σ} {rest : List (DecodeCall σ)}
    (h : IsLastStart k p rest) (hc : c.offset ≤ p) : IsLastStart k p (c :: rest) :=
  ⟨List.mem_cons_of_mem _ h.1, h.2.1, fun c' hc' hc'k => by
    rcases List.mem_cons.mp hc' with rfl | hc'
    · exact hc
    · exact h.2.2 c' hc' hc'k⟩

section Prefixed

variable {D} (hP : D.Prefixed)
include hP

/-- A finished call gives the same answer on its window with any bytes appended. -/
theorem decode_append {w : List UInt8} {ctx : DecoderContext} {s : σ} (x : List UInt8)
    (hf : (D.decode w ctx s).1.status = .finished) : D.decode (w ++ x) ctx s = D.decode w ctx s :=
  hP.determined w (w ++ x) ctx s hf
    (List.take_append_of_le_length (D.finished_read w ctx s hf).2)

/-- A finished call gives the same answer on any prefix of its window that it reads whole. -/
theorem decode_take {w : List UInt8} {ctx : DecoderContext} {s : σ} {k : Nat}
    (hf : (D.decode w ctx s).1.status = .finished) (hk : (D.decode w ctx s).1.read ≤ k) :
    D.decode (w.take k) ctx s = D.decode w ctx s :=
  hP.determined w (w.take k) ctx s hf (by rw [List.take_take, Nat.min_eq_left hk])

/-- The run on `e ++ x`, from any point of a run on `e` that succeeds, makes the same calls
with the same answers, so it returns the same root and result. -/
theorem loadLoop_append (e x : List UInt8) (read : Nat) (ctx : DecoderContext) (s : σ)
    (hok : (loadLoop D decref e read ctx s).result.error.code = .none) :
    (loadLoop D decref (e ++ x) read ctx s).item = (loadLoop D decref e read ctx s).item ∧
    (loadLoop D decref (e ++ x) read ctx s).result = (loadLoop D decref e read ctx s).result := by
  rcases loadLoop_cases D decref e read ctx s with
    ⟨-, he⟩ | ⟨c, hlt, hoff, hwin, hd, ⟨-, code, hcode, -, he⟩ | ⟨hc, hnil, he⟩ | ⟨hc, hnil, he⟩⟩
  · rw [he] at hok; exact absurd hok nofun
  · rw [he] at hok; exact absurd hok hcode
  all_goals
    have hlt' : read < (e ++ x).length := by rw [List.length_append]; omega
    have hd' : D.decode ((e ++ x).drop read) ctx s = (c.result, c.context, c.state) := by
      rw [List.drop_append_of_le_length hlt.le, decode_append hP x (by rw [hd]; exact hc.1), hd]
    have hstep := loadLoop_continues D decref hlt'
      (show ({ c with window := (e ++ x).drop read } : DecodeCall σ).offset = read from hoff) rfl
      hd' hc
  · -- the run on `e` returns after this call, and so does the run on `e ++ x`
    rw [he, hstep.1 hnil]
    exact ⟨rfl, rfl⟩
  · -- both runs go on from the same point
    rw [he] at hok ⊢
    rw [hstep.2 hnil]
    exact loadLoop_append e x (read + c.result.read) c.context c.state hok
termination_by e.length - read
decreasing_by
  have := (one_le_read D hd hc).1
  omega

/-- A cut inside the bytes a finished call reads, at or after where it began: the run from
there asks for more data at once, or finds nothing left to read. -/
theorem loadLoop_take_inside {e : List UInt8} {read k : Nat} {ctx : DecoderContext} {s : σ}
    {c : DecodeCall σ} (hd : D.decode (e.drop read) ctx s = (c.result, c.context, c.state))
    (hc : c.Continues) (hk : read ≤ k) (hkr : k < read + c.result.read) :
    (loadLoop D decref (e.take k) read ctx s).item = none ∧
    (loadLoop D decref (e.take k) read ctx s).result.error = ⟨read, .notEnoughData⟩ := by
  rcases hk.eq_or_lt with rfl | hlt
  · -- the cut is where the call began: nothing is left to read
    rw [loadLoop, dif_neg (by rw [List.length_take]; omega)]
    exact ⟨rfl, rfl⟩
  · -- the cut is inside the call's bytes: the decoder asks for more
    have hf : (D.decode (e.drop read) ctx s).1.status = .finished := by rw [hd]; exact hc.1
    have hr := consumed_le D hd
    rw [(one_le_read D hd hc).2] at hr
    obtain ⟨hs, hctx⟩ := hP.truncated (e.drop read) ctx s (k - read) hf (by omega)
      (by rw [hd]; exact (by omega : k - read < c.result.read))
    have hd' : D.decode ((e.take k).drop read) ctx s =
        ((D.decode ((e.drop read).take (k - read)) ctx s).1, ctx, s) := by
      rw [List.drop_take, ← hctx]
    rw [loadLoop_neData D decref (by rw [List.length_take]; omega)
      (show (⟨read, (e.take k).drop read, _, ctx, s⟩ : DecodeCall σ).offset = read from rfl) rfl
      hd' hs]
    exact ⟨rfl, rfl⟩

/-- A cut of a source that a run loads whole, at or after the run's start: the run on the
cut source fails with `CBOR_ERR_NOTENOUGHDATA` at the start of the last call that began at
or before the cut. -/
theorem loadLoop_take (e : List UInt8) (k read : Nat) (ctx : DecoderContext) (s : σ)
    (hk : read ≤ k) (hke : k < e.length)
    (hok : (loadLoop D decref e read ctx s).result.error.code = .none)
    (hread : (loadLoop D decref e read ctx s).result.read = e.length) :
    (loadLoop D decref (e.take k) read ctx s).item = none ∧
    (loadLoop D decref (e.take k) read ctx s).result.error.code = .notEnoughData ∧
    IsLastStart k (loadLoop D decref (e.take k) read ctx s).result.error.position
      (loadLoop D decref e read ctx s).calls := by
  rcases loadLoop_cases D decref e read ctx s with
    ⟨-, he⟩ | ⟨c, hlt, hoff, hwin, hd, ⟨-, code, hcode, -, he⟩ | ⟨hc, hnil, he⟩ | ⟨hc, hnil, he⟩⟩
  · rw [he] at hok; exact absurd hok nofun
  · rw [he] at hok; exact absurd hok hcode
  · -- the run on `e` ends with this call, so the cut is inside it
    rw [he] at hread ⊢
    obtain ⟨h₁, h₂⟩ := loadLoop_take_inside decref hP hd hc hk (by dsimp only at hread; omega)
    rw [h₂]
    exact ⟨h₁, rfl, IsLastStart.head hoff hk nofun⟩
  · rw [he] at hok hread ⊢
    have hwin' := (loopSpec D decref e (read + c.result.read) c.context c.state).calls_offset
    by_cases hkr : k < read + c.result.read
    · -- the cut is inside this call; every later call begins after it
      obtain ⟨h₁, h₂⟩ := loadLoop_take_inside decref hP hd hc hk hkr
      rw [h₂]
      exact ⟨h₁, rfl, IsLastStart.head hoff hk fun c' hc' => by
        have := (hwin' c' hc').1
        omega⟩
    · -- the cut is past this call, which the cut run makes alike
      have hf : (D.decode (e.drop read) ctx s).1.status = .finished := by rw [hd]; exact hc.1
      have h1 := (one_le_read D hd hc).1
      have hd' : D.decode ((e.take k).drop read) ctx s = (c.result, c.context, c.state) := by
        rw [List.drop_take, decode_take hP hf (by rw [hd]; exact (by omega : c.result.read ≤ k - read)), hd]
      have hstep := loadLoop_continues D decref (by rw [List.length_take]; omega)
        (show ({ c with window := (e.take k).drop read } : DecodeCall σ).offset = read from hoff)
        rfl hd' hc
      rw [hstep.2 hnil]
      obtain ⟨h₁, h₂, hlast⟩ :=
        loadLoop_take e k (read + c.result.read) c.context c.state (by omega) hke hok hread
      refine ⟨h₁, h₂, hlast.cons ?_⟩
      -- the later run's last start is one of its calls, all past this one
      obtain ⟨c'', hc'', hoff''⟩ := List.mem_map.mp hlast.1
      have := (hwin' c'' hc'').1
      omega
termination_by e.length - read
decreasing_by
  have := (one_le_read D hd hc).1
  omega

/-- `cbor_load` of a source it loads whole: every cut inside the source fails with
`CBOR_ERR_NOTENOUGHDATA` at the start of the last item begun at or before the cut, and any
bytes appended give the same root and result. -/
theorem cborLoad_prefix {e : List UInt8} {result : CborLoadResult} {s : σ}
    (hok : (cborLoad D decref e result s).result.error.code = .none)
    (hread : (cborLoad D decref e result s).result.read = e.length) :
    (∀ k, 0 < k → k < e.length →
      (cborLoad D decref (e.take k) result s).item = none ∧
      (cborLoad D decref (e.take k) result s).result.error.code = .notEnoughData ∧
      IsLastStart k (cborLoad D decref (e.take k) result s).result.error.position
        (cborLoad D decref e result s).calls) ∧
    ∀ x, (cborLoad D decref (e ++ x) result s).item = (cborLoad D decref e result s).item ∧
      (cborLoad D decref (e ++ x) result s).result = (cborLoad D decref e result s).result := by
  have he : e.length ≠ 0 := fun h => by rw [cborLoad, if_pos h] at hok; exact absurd hok nofun
  rw [cborLoad_of_ne D decref he] at hok hread ⊢
  refine ⟨fun k hk hke => ?_, fun x => ?_⟩
  · rw [cborLoad_of_ne D decref (by rw [List.length_take]; omega)]
    exact loadLoop_take decref hP e k 0 _ s (Nat.zero_le k) hke hok hread
  · rw [cborLoad_of_ne D decref (by rw [List.length_append]; omega)]
    exact loadLoop_append decref hP e x 0 _ s hok

end Prefixed

theorem cborLoad_prefix_array :
    (arrayDecoder : StreamDecoder Unit).Prefixed ∧
    (cborLoad arrayDecoder (fun _ _ => ()) [0x81, 0x18, 0x2a] ⟨⟨0, .none⟩, 0⟩ ()).result.error.code =
      .none ∧
    (cborLoad arrayDecoder (fun _ _ => ()) [0x81, 0x18, 0x2a] ⟨⟨0, .none⟩, 0⟩ ()).result.read =
      ([0x81, 0x18, 0x2a] : List UInt8).length ∧
    ((∀ k, 0 < k → k < ([0x81, 0x18, 0x2a] : List UInt8).length →
      (cborLoad arrayDecoder (fun _ _ => ()) (([0x81, 0x18, 0x2a] : List UInt8).take k)
        ⟨⟨0, .none⟩, 0⟩ ()).item = none ∧
      (cborLoad arrayDecoder (fun _ _ => ()) (([0x81, 0x18, 0x2a] : List UInt8).take k)
        ⟨⟨0, .none⟩, 0⟩ ()).result.error.code = .notEnoughData ∧
      IsLastStart k (cborLoad arrayDecoder (fun _ _ => ()) (([0x81, 0x18, 0x2a] : List UInt8).take k)
          ⟨⟨0, .none⟩, 0⟩ ()).result.error.position
        (cborLoad arrayDecoder (fun _ _ => ()) [0x81, 0x18, 0x2a] ⟨⟨0, .none⟩, 0⟩ ()).calls) ∧
    ∀ x, (cborLoad arrayDecoder (fun _ _ => ()) ([0x81, 0x18, 0x2a] ++ x) ⟨⟨0, .none⟩, 0⟩ ()).item =
        (cborLoad arrayDecoder (fun _ _ => ()) [0x81, 0x18, 0x2a] ⟨⟨0, .none⟩, 0⟩ ()).item ∧
      (cborLoad arrayDecoder (fun _ _ => ()) ([0x81, 0x18, 0x2a] ++ x) ⟨⟨0, .none⟩, 0⟩ ()).result =
        (cborLoad arrayDecoder (fun _ _ => ()) [0x81, 0x18, 0x2a] ⟨⟨0, .none⟩, 0⟩ ()).result) :=
  have hok : (cborLoad arrayDecoder (fun _ _ => ()) [0x81, 0x18, 0x2a] ⟨⟨0, .none⟩, 0⟩
      ()).result.error.code = .none := by rw [cborLoad_array]
  have hread : (cborLoad arrayDecoder (fun _ _ => ()) [0x81, 0x18, 0x2a] ⟨⟨0, .none⟩, 0⟩
      ()).result.read = ([0x81, 0x18, 0x2a] : List UInt8).length := by rw [cborLoad_array]; rfl
  ⟨arrayDecoder_prefixed, hok, hread, cborLoad_prefix _ arrayDecoder_prefixed hok hread⟩

end Libcbor.LoadPrefix
