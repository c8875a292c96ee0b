import Mantis.Polymarket.Framing

/-!
# Mantis.Polymarket.DepthRank

The `depth` of the events of a snapshot. `decode_book` takes it from the position of the
level in the list of its side, cast to a byte, on the grounds that the position is bounded
by the 64 slots of the output buffer. The slots bound the number of levels written; the
position also counts the levels skipped before them.
-/

namespace Mantis

open PolymarketMarketDecoder

variable {D : Nat}

/-- What a `BookDelta` event quotes, and its depth. -/
def HotEvent.rank? (event : HotEvent) : Option (Quote × Nat) :=
  match event.body with
  | .bookDelta delta => some ((delta.side, delta.price, delta.qty), delta.depth.toNat)
  | _ => none

/-- The parsable levels of one side with their positions, the first level at `start`. -/
def rankedLevels (metadata : InstrumentMeta D) (side : Side) (start : Nat)
    (levels : List BookLevel) : List (Quote × Nat) :=
  (levels.zipIdx start).filterMap fun (level, rank) =>
    (parsePriceQty level.price level.size metadata).map fun parsed => ((side, parsed), rank)

/-- The parsable levels of a message with their positions in their own lists: bids, then
asks. -/
def rankedBook (metadata : InstrumentMeta D) (msg : PolymarketBookMsg) : List (Quote × Nat) :=
  rankedLevels metadata .bid 0 msg.bids ++ rankedLevels metadata .ask 0 msg.asks

/-- Every level written stands at a position that a byte holds. -/
def RanksFit (metadata : InstrumentMeta D) (msg : PolymarketBookMsg) : Prop :=
  ∀ entry ∈ (rankedBook metadata msg).take 64, entry.2 < 256

instance (metadata : InstrumentMeta D) (msg : PolymarketBookMsg) :
    Decidable (RanksFit metadata msg) :=
  inferInstanceAs (Decidable (∀ entry ∈ (rankedBook metadata msg).take 64, entry.2 < 256))

/-! ### The depths written -/

/-- A loop writes the positions modulo 256. -/
theorem parsedLevels_ranks (metadata : InstrumentMeta D) (side : Side) (depthIdx : Nat)
    (levels : List BookLevel) :
    (parsedLevels metadata side depthIdx levels).map
        (fun d => ((d.side, d.price, d.qty), d.depth.toNat)) =
      (rankedLevels metadata side depthIdx levels).map fun entry => (entry.1, entry.2 % 256) := by
  induction levels generalizing depthIdx with
  | nil => rfl
  | cons level levels ih =>
      simp only [parsedLevels, rankedLevels, List.zipIdx_cons, List.filterMap_cons]
      cases parsePriceQty level.price level.size metadata with
      | none => exact ih (depthIdx + 1)
      | some parsed =>
          simp only [Option.map_some, List.map_cons]
          rw [ih (depthIdx + 1)]
          rfl

theorem parsedBook_ranks (metadata : InstrumentMeta D) (msg : PolymarketBookMsg) :
    (parsedBook metadata msg).map (fun d => ((d.side, d.price, d.qty), d.depth.toNat)) =
      (rankedBook metadata msg).map fun entry => (entry.1, entry.2 % 256) := by
  rw [parsedBook, List.map_append, parsedLevels_ranks, parsedLevels_ranks, rankedBook,
    List.map_append]

section

variable {json : PolymarketJson} {frame : Frame} {msg : PolymarketBookMsg}
  {dec : PolymarketMarketDecoder D} {id : InstrumentId} {metadata : InstrumentMeta D}

/-- The batch has the first 64 parsable levels with their positions modulo 256. -/
theorem announced_ranks (hjson : json.book frame.buf = some msg)
    (hresolve : dec.resolve msg.assetId = some (id, metadata)) (out : OutBuffer) :
    (announced (dec.decodeBookInto json frame out)).map HotEvent.rank? =
      ((rankedBook metadata msg).take 64).map fun entry => some (entry.1, entry.2 % 256) := by
  have hevents : (announced (dec.decodeBookInto json frame out)).map HotEvent.rank? =
      ((parsedBook metadata msg).take outCapacity).map
        (some ∘ fun d => ((d.side, d.price, d.qty), d.depth.toNat)) := by
    rw [announced_decodeBookInto hjson hresolve, map_modify_markLast fun _ => rfl]
    exact map_snapshotEvents (fun _ _ => rfl) ..
  rw [hevents, ← List.map_map, List.map_take, parsedBook_ranks, ← List.map_take, List.map_map]
  rfl

/-- **When depths are ranks.** For every `"book"` message of a known token, each event
carries the position of its level in the list of its side if and only if every level
written stands at a position below 256, counting the unparsable levels before it. -/
theorem ranks_faithful_iff (hjson : json.book frame.buf = some msg)
    (hresolve : dec.resolve msg.assetId = some (id, metadata)) (out : OutBuffer) :
    (announced (dec.decodeBookInto json frame out)).map HotEvent.rank? =
        ((rankedBook metadata msg).take 64).map some ↔
      RanksFit metadata msg := by
  rw [announced_ranks hjson hresolve, List.map_inj_left, RanksFit]
  refine forall₂_congr fun entry _ => ?_
  rw [Option.some.injEq, Prod.ext_iff]
  constructor
  · rintro ⟨-, hmod⟩
    rw [← hmod]
    exact Nat.mod_lt _ (by decide)
  · intro hlt
    exact ⟨rfl, Nat.mod_eq_of_lt hlt⟩

end

/-- A skipped level at the end leaves the depths of the levels before it. -/
theorem ranks_faithful_broken :
    (announced (shareDecoder.decodeBookInto (parserOf brokenMsg) (snapshotFrame brokenMsg)
        makeOut)).map HotEvent.rank? =
      ((rankedBook shareMeta brokenMsg).take 64).map some :=
  (ranks_faithful_iff (parserOf_book brokenMsg)
    (show shareDecoder.resolve brokenMsg.assetId = some (1, shareMeta) by decide) makeOut).mpr
    (by decide)

/-- A snapshot with 256 unparsable bids before a parsable one. -/
def skippedMsg : PolymarketBookMsg :=
  ⟨"token_up_123", List.replicate 256 ⟨"bad", "100"⟩ ++ [⟨"0.50", "100"⟩], []⟩

/-- The only parsable bid is at position 256, and its event says it is the best one. -/
theorem skipped_levels_wrap_depth :
    (parserOf skippedMsg).book (snapshotFrame skippedMsg).buf = some skippedMsg ∧
    shareDecoder.resolve skippedMsg.assetId = some (1, shareMeta) ∧
    rankedBook shareMeta skippedMsg = [((.bid, 50, 100), 256)] ∧
    (announced (shareDecoder.decodeBookInto (parserOf skippedMsg) (snapshotFrame skippedMsg)
      makeOut)).map HotEvent.rank? = [some ((.bid, 50, 100), 0)] ∧
    (announced (shareDecoder.decodeBookInto (parserOf skippedMsg) (snapshotFrame skippedMsg)
      makeOut)).map HotEvent.rank? ≠ ((rankedBook shareMeta skippedMsg).take 64).map some := by
  have hresolve : shareDecoder.resolve skippedMsg.assetId = some (1, shareMeta) := by decide
  have hranked : rankedBook shareMeta skippedMsg = [((.bid, 50, 100), 256)] := by decide +kernel
  have hevents := announced_ranks (parserOf_book skippedMsg) hresolve makeOut
  rw [hranked] at hevents
  refine ⟨parserOf_book skippedMsg, hresolve, hranked, hevents, ?_⟩
  rw [hevents, hranked]
  decide

end Mantis
