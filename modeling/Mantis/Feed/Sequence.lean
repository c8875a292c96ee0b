import Mantis.Binance.Decoder
import Mantis.Polymarket.Decode
import Mantis.Registry.ReverseIndex

/-!
# Mantis.Feed.Sequence

Sequence numbers account for every event: over any stream of frames the events written
are numbered 1, 2, 3, ..., and behind the callback the last number is the number of
accepted events plus the drop counter.

The counter has 64 bits and wraps, so the numbers are those of `UInt64`. Below `2 ^ 64`
events they are exact; `numbers_repeat` shows that a longer stream does repeat them.
-/

namespace Mantis

open Runs

/-- What the sequence numbers of a decoder promise from the state `dec` on. -/
structure AccountsForEvents {δ : Type} (decode : δ → Frame → OutBuffer → δ × OutBuffer × Nat)
    (seqOf : δ → SeqNum) (dec : δ) : Prop where
  /-- Every call, in whatever state, writes the events it counts, with the next numbers. -/
  call : ∀ dec' frame out, CallSpec seqOf dec' out (decode dec' frame out)
  /-- The `k`-th event of a stream carries the number `k`. -/
  numbered : ∀ out frames, (decoded decode dec out frames).map (·.header.seq) =
    (List.range (decoded decode dec out frames).length).map fun k => UInt64.ofNat (k + 1)
  /-- Whatever `push` answers, the accepted events are written ones, in order, and the
  last number is their count plus the drop counter. -/
  accounted : ∀ (σ : Type) (push : σ → HotEvent → σ × Bool) (sink : σ) (frames : List Frame),
    (run (FeedCallback.onFrame decode push) (.build dec sink) frames).accepted.Sublist
      (decoded decode dec makeOut frames) ∧
    seqOf (run (FeedCallback.onFrame decode push) (.build dec sink) frames).decoder =
      UInt64.ofNat (run (FeedCallback.onFrame decode push) (.build dec sink) frames).accepted.length
        + (run (FeedCallback.onFrame decode push) (.build dec sink) frames).dropCount
  /-- Below `2 ^ 64` events nothing wraps. -/
  exact : ∀ (σ : Type) (push : σ → HotEvent → σ × Bool) (sink : σ) (frames : List Frame),
    (decoded decode dec makeOut frames).length < 2 ^ 64 →
    (decoded decode dec makeOut frames).map (·.header.seq.toNat) =
      List.range' 1 (decoded decode dec makeOut frames).length ∧
    ((run (FeedCallback.onFrame decode push) (.build dec sink) frames).accepted.map
      (·.header.seq)).Pairwise (· < ·) ∧
    (seqOf (run (FeedCallback.onFrame decode push) (.build dec sink) frames).decoder).toNat =
      (run (FeedCallback.onFrame decode push) (.build dec sink) frames).accepted.length +
        (run (FeedCallback.onFrame decode push) (.build dec sink) frames).dropCount.toNat

section Accounting

variable {δ : Type} {decode : δ → Frame → OutBuffer → δ × OutBuffer × Nat} {seqOf : δ → SeqNum}
  {dec : δ}

/-- Numbers below `2 ^ 64` are those of the naturals. -/
theorem toNat_numbers {n : Nat} (hn : n < 2 ^ 64) :
    ((List.range n).map fun k => UInt64.ofNat (k + 1)).map UInt64.toNat = List.range' 1 n := by
  rw [List.map_map, List.range'_eq_map_range]
  refine List.map_congr_left fun k hk => ?_
  have hk' := List.mem_range.mp hk
  show (UInt64.ofNat (k + 1)).toNat = 1 + k
  have hlt : k + 1 < UInt64.size := Nat.lt_of_le_of_lt hk' hn
  rw [UInt64.toNat_ofNat_of_lt' hlt, Nat.add_comm]

/-- From a counter of zero the `k`-th event carries the number `k`. -/
theorem decoded_numbered (hcall : ∀ dec frame out, CallSpec seqOf dec out (decode dec frame out))
    (hzero : seqOf dec = 0) (out : OutBuffer) (frames : List Frame) :
    (decoded decode dec out frames).map (·.header.seq) =
      (List.range (decoded decode dec out frames).length).map fun k => UInt64.ofNat (k + 1) := by
  rw [decoded_seq hcall, hzero]
  refine List.map_congr_left fun k _ => ?_
  exact UInt64.zero_add _

theorem decoded_toNat (hcall : ∀ dec frame out, CallSpec seqOf dec out (decode dec frame out))
    (hzero : seqOf dec = 0) {out : OutBuffer} {frames : List Frame}
    (hn : (decoded decode dec out frames).length < 2 ^ 64) :
    (decoded decode dec out frames).map (·.header.seq.toNat) =
      List.range' 1 (decoded decode dec out frames).length := by
  have hmap := congrArg (List.map UInt64.toNat) (decoded_numbered hcall hzero out frames)
  rw [toNat_numbers hn, List.map_map] at hmap
  exact hmap

theorem decoded_increasing
    (hcall : ∀ dec frame out, CallSpec seqOf dec out (decode dec frame out))
    (hzero : seqOf dec = 0) {out : OutBuffer} {frames : List Frame}
    (hn : (decoded decode dec out frames).length < 2 ^ 64) :
    ((decoded decode dec out frames).map (·.header.seq)).Pairwise (· < ·) := by
  have hrange : ((decoded decode dec out frames).map (·.header.seq.toNat)).Pairwise (· < ·) := by
    rw [decoded_toNat hcall hzero hn]
    exact List.pairwise_lt_range'
  rw [List.pairwise_map] at hrange ⊢
  exact hrange.imp UInt64.lt_iff_toNat_lt.mpr

/-- A decoder whose calls meet their specification accounts for every event. -/
theorem accountsForEvents (hcall : ∀ dec frame out, CallSpec seqOf dec out (decode dec frame out))
    (hzero : seqOf dec = 0) : AccountsForEvents decode seqOf dec := by
  have hseq : ∀ (σ : Type) (push : σ → HotEvent → σ × Bool) (sink : σ) (frames : List Frame),
      seqOf (run (FeedCallback.onFrame decode push) (.build dec sink) frames).decoder =
        UInt64.ofNat (decoded decode dec makeOut frames).length := by
    intro σ push sink frames
    refine (FeedCallback.run_seq hcall push (.build dec sink) frames).trans ?_
    show seqOf dec + _ = _
    rw [hzero]
    exact UInt64.zero_add _
  refine ⟨hcall, decoded_numbered hcall hzero, ?_, ?_⟩
  · intro σ push sink frames
    obtain ⟨hsub, drops, hdrop, hlen⟩ := FeedCallback.build_offers decode push dec sink frames
    refine ⟨hsub, ?_⟩
    rw [hseq, hdrop, ← hlen, UInt64.ofNat_add]
  · intro σ push sink frames hn
    obtain ⟨hsub, drops, hdrop, hlen⟩ := FeedCallback.build_offers decode push dec sink frames
    refine ⟨decoded_toNat hcall hzero hn, ?_, ?_⟩
    · exact (decoded_increasing hcall hzero hn).sublist (hsub.map _)
    · have hdrops : drops < UInt64.size := by
        refine Nat.lt_of_le_of_lt ?_ hn
        omega
      rw [hseq, hdrop, UInt64.toNat_ofNat_of_lt' hn, UInt64.toNat_ofNat_of_lt' hdrops, hlen]

/-- A frame that always decodes to one event, repeated. -/
theorem length_decoded_replicate {P : δ → Prop} {frame : Frame}
    (hone : ∀ dec out, P dec → (decode dec frame out).2.2 = 1 ∧ P (decode dec frame out).1)
    (hdec : P dec) (out : OutBuffer) (n : Nat) :
    (decoded decode dec out (List.replicate n frame)).length = n := by
  induction n generalizing dec out with
  | zero => rfl
  | succ n ih =>
      obtain ⟨hcount, hnext⟩ := hone dec out hdec
      have hlen : (announced (decode dec frame out)).length = 1 := by
        simp only [announced]
        rw [hcount, List.length_take, Vector.length_toList]
        rfl
      rw [List.replicate_succ]
      simp only [decoded, List.length_append]
      rw [hlen, ih hnext, Nat.add_comm]

end Accounting

/-! ### The two decoders -/

/-- **Sequence numbers account for every event**, for both decoders and any JSON parser. -/
theorem sequence_accounts {D : Nat} (polymarketJson : PolymarketJson) (binanceJson : BinanceJson)
    (sourceId : SourceId) :
    (∀ registry : InstrumentRegistry D,
      AccountsForEvents (PolymarketMarketDecoder.decode polymarketJson)
        PolymarketMarketDecoder.seq (.new sourceId registry)) ∧
    (∀ (mappings : List (BinanceSymbolMapping D)) (dec : BinanceDecoder D) (combined : Bool),
      BinanceDecoder.new sourceId mappings = .ok dec →
      AccountsForEvents (BinanceDecoder.decode binanceJson) BinanceDecoder.seq
        (dec.setCombinedStream combined)) := by
  refine ⟨?_, ?_⟩
  · intro registry
    exact accountsForEvents (PolymarketMarketDecoder.decode_callSpec polymarketJson) rfl
  · intro mappings dec combined hnew
    have hzero : dec.seq = 0 := BinanceDecoder.new_seq hnew
    exact accountsForEvents (BinanceDecoder.decode_callSpec binanceJson) hzero

/-- Three updates and an empty frame; `push` refuses every other event. -/
theorem sequence_accounts_alternating :
    let cb := run (FeedCallback.onFrame (PolymarketMarketDecoder.decode sampleParser)
        fun full _ => (!full, !full)) (.build shareDecoder false)
      [updateFrame, updateFrame, ⟨[], 0⟩, updateFrame]
    cb.decoder.seq = 3 ∧ cb.dropCount = 1 ∧
    (cb.accepted.map (·.header.seq)).Pairwise (· < ·) := by
  refine ⟨by decide +kernel, by decide +kernel, ?_⟩
  have haccounts := (sequence_accounts (D := 6) sampleParser ⟨fun _ => none, fun _ => none⟩ 1).1
    shareDecoder.registry
  refine (haccounts.exact Bool (fun full _ => (!full, !full)) false _ ?_).2.1
  decide +kernel

/-! ### Streams that wrap the counter -/

theorem decode_updateFrame (s : UInt64) (out : OutBuffer) :
    (({ shareDecoder with seq := s } : PolymarketMarketDecoder 6).decode sampleParser updateFrame
      out).2.2 = 1 ∧
    (({ shareDecoder with seq := s } : PolymarketMarketDecoder 6).decode sampleParser updateFrame
      out).1 = { shareDecoder with seq := s + 1 } := by
  have hresolve : ({ shareDecoder with seq := s } : PolymarketMarketDecoder 6).resolve
      updateMsg.assetId = some (1, shareMeta) := by
    have hany : ({ shareDecoder with seq := s } : PolymarketMarketDecoder 6).resolve
        updateMsg.assetId = shareDecoder.resolve updateMsg.assetId := rfl
    rw [hany]
    decide +kernel
  have hparse : PolymarketMarketDecoder.parsePriceQty updateMsg.price updateMsg.size shareMeta =
      some (53, 100) := by decide +kernel
  have hjson : sampleParser.priceChange updateFrame.buf = some updateMsg := by
    simp [sampleParser]
  have hside : parseSide updateMsg.side = some .bid := rfl
  rw [PolymarketMarketDecoder.decode_of_priceChange (by decide +kernel) (by decide +kernel),
    PolymarketMarketDecoder.decodePriceChange_eq hjson hresolve hparse hside]
  exact ⟨rfl, rfl⟩

/-- After `2 ^ 64` updates the numbers start over: the first event and the one numbered
after the last of them carry the same number. -/
theorem numbers_repeat :
    ((decoded (PolymarketMarketDecoder.decode sampleParser) shareDecoder makeOut
        (List.replicate (2 ^ 64 + 1) updateFrame)).map (·.header.seq))[0]? = some 1 ∧
    ((decoded (PolymarketMarketDecoder.decode sampleParser) shareDecoder makeOut
        (List.replicate (2 ^ 64 + 1) updateFrame)).map (·.header.seq))[2 ^ 64]? = some 1 := by
  have hlen : (decoded (PolymarketMarketDecoder.decode sampleParser) shareDecoder makeOut
      (List.replicate (2 ^ 64 + 1) updateFrame)).length = 2 ^ 64 + 1 := by
    refine length_decoded_replicate (P := fun dec => ∃ s, dec = { shareDecoder with seq := s }) ?_
      ⟨0, rfl⟩ makeOut (2 ^ 64 + 1)
    rintro dec out ⟨s, rfl⟩
    obtain ⟨hcount, hnext⟩ := decode_updateFrame s out
    exact ⟨hcount, s + 1, hnext⟩
  have haccounts : AccountsForEvents (PolymarketMarketDecoder.decode sampleParser)
      PolymarketMarketDecoder.seq shareDecoder :=
    accountsForEvents (PolymarketMarketDecoder.decode_callSpec sampleParser) rfl
  rw [haccounts.numbered, hlen, List.getElem?_map, List.getElem?_map,
    List.getElem?_range (by omega), List.getElem?_range (by omega)]
  exact ⟨by decide, by decide⟩

end Mantis
