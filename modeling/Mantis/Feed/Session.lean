import Mantis.Feed.Sequence
import Mantis.Transport.Feed

/-!
# Mantis.Feed.Session

A feed as it is spawned (`spawn_polymarket_market_feed` and `spawn_reference_feed`): the
callback of the decoder on the thread that reconnects. Decoder, buffer and counters live in
the callback, so a lost connection does not touch them: over a whole session the numbers of
the events go on from one connection to the next. The callback never refuses a frame, so only
the shutdown flag ends a session.
-/

namespace Mantis

open Runs

section Session

variable {δ σ : Type} {decode : δ → Frame → OutBuffer → δ × OutBuffer × Nat}
  {push : σ → HotEvent → σ × Bool} {seqOf : δ → SeqNum} {dec : δ}

end Session

end Mantis
