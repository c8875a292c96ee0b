import Mantis.Queue.CopyRingEngine
import Mantis.Queue.Sequential

/-!
# Mantis.Queue.CopySequential

`CopyRingEngine` on one thread: batches against iterated single operations.

`Ring.pushBatch` and `Ring.popBatch` are the calls written as the source writes them,
with their two chunks and the caller's buffer. `pushBatch_completes` and
`popBatch_completes` connect them to the atomic steps of `Mantis.Queue.CopyRing`, where
no subtraction underflows. A batch then acts on the bounded queue as the single
operation iterated until it fails, so that no sequence of later calls can tell a batch
from the loop it replaces.
-/

namespace Mantis

open Objects Runs

variable {α : Type}

/-! ### Batches -/

/-- `write_batch_copy`: consecutive slots from `start`. -/
def writeBatch (slots : Nat → α) (start : Nat) : List α → Nat → α
  | [] => slots
  | value :: values => writeBatch (Function.update slots start value) (start + 1) values

/-- `read_batch_copy`: `count` consecutive slots from `start`. -/
def readBatch (slots : Nat → α) (start count : Nat) : List α :=
  (List.range count).map fun i => slots (start + i)

/-- The entries a batch adds to the producer's log, from its element `i` on. -/
def batchLog (head first i : Nat) : List α → List (Nat × α)
  | [] => []
  | value :: values => (chunkSlot head first i, value) :: batchLog head first (i + 1) values

/-- The end of a `push_batch`: copy two chunks and publish the new head. -/
def Ring.storeBatch (cfg : RingConfig) (r : Ring α) (src : List α) (head free : Nat) :
    Option (Ring α × Nat) :=
  let n := min src.length free
  (firstChunk cfg.cap head n).map fun first =>
    let slots := writeBatch r.slots head (src.take first)
    let slots := writeBatch slots 0 ((src.take n).drop first)
    let newHead := cfg.strategy.wrap (head + n) cfg.cap
    ({ r with
        slots
        producer :=
          { r.producer with
            head := newHead
            headLocal := if cfg.aarch64 then newHead else r.producer.headLocal
            pushed := r.producer.pushed ++ batchLog head first 0 (src.take n) } }, n)

/-- `push_batch`: the number of elements accepted, `none` on an underflow. -/
def Ring.pushBatch (cfg : RingConfig) (r : Ring α) (src : List α) : Option (Ring α × Nat) :=
  if src.isEmpty then some (r, 0)
  else
    let head := r.ownHead cfg
    match ringFree cfg.cap head r.producer.tailCached with
    | none => none
    | some free =>
        if free < src.length then
          let tail := r.consumer.tail
          let r := { r with producer := { r.producer with tailCached := tail } }
          match ringFree cfg.cap head tail with
          | none => none
          | some free => if free = 0 then some (r, 0) else r.storeBatch cfg src head free
        else r.storeBatch cfg src head free

/-- The end of a `pop_batch`: copy two chunks to the front of `dst` and publish the new
tail. -/
def Ring.loadBatch (cfg : RingConfig) (r : Ring α) (dst : List α) (tail avail : Nat) :
    Option (Ring α × List α × Nat) :=
  let n := min dst.length avail
  (firstChunk cfg.cap tail n).map fun first =>
    let out := readBatch r.slots tail first ++ readBatch r.slots 0 (n - first)
    let newTail := cfg.strategy.wrap (tail + n) cfg.cap
    ({ r with
        consumer :=
          { r.consumer with
            tail := newTail
            tailLocal := if cfg.aarch64 then newTail else r.consumer.tailLocal
            popped := r.consumer.popped ++ out } }, out ++ dst.drop n, n)

/-- `pop_batch`: the buffer afterwards and the number of elements written to it. -/
def Ring.popBatch (cfg : RingConfig) (r : Ring α) (dst : List α) :
    Option (Ring α × List α × Nat) :=
  if dst.isEmpty then some (r, dst, 0)
  else
    let tail := r.ownTail cfg
    match ringLen cfg.cap r.consumer.headCached tail with
    | none => none
    | some avail =>
        if avail < dst.length then
          let head := r.producer.head
          let r := { r with consumer := { r.consumer with headCached := head } }
          match ringLen cfg.cap head tail with
          | none => none
          | some avail => if avail = 0 then some (r, dst, 0) else r.loadBatch cfg dst tail avail
        else r.loadBatch cfg dst tail avail

/-! ### The copy loops -/

theorem batchLog_values (head first i : Nat) (values : List α) :
    (batchLog head first i values).map Prod.snd = values := by
  induction values generalizing i with
  | nil => rfl
  | cons value values ih => simp [batchLog, ih]

/-- Write the elements of a batch one by one, from its element `i` on. -/
def writeChunks (slots : Nat → α) (head first i : Nat) : List α → Nat → α
  | [] => slots
  | value :: values =>
      writeChunks (Function.update slots (chunkSlot head first i) value) head first (i + 1) values

/-- Past the first chunk the loop runs from slot zero. -/
theorem writeChunks_second (slots : Nat → α) (head first k : Nat) (values : List α) :
    writeChunks slots head first (first + k) values = writeBatch slots k values := by
  induction values generalizing slots k with
  | nil => rfl
  | cons value values ih =>
      have hslot : chunkSlot head first (first + k) = k := by
        simp only [chunkSlot]
        rw [if_neg (by omega), Nat.add_sub_cancel_left]
      simp only [writeChunks, writeBatch]
      rw [hslot, Nat.add_assoc, ih]

/-- Element by element or in two chunks, the same slots get the same values. -/
theorem writeChunks_eq (slots : Nat → α) (head i k : Nat) (values : List α) :
    writeChunks slots head (i + k) i values =
      writeBatch (writeBatch slots (head + i) (values.take k)) 0 (values.drop k) := by
  induction k generalizing slots i values with
  | zero =>
      rw [List.take_zero, List.drop_zero]
      exact writeChunks_second slots head i 0 values
  | succ k ih =>
      cases values with
      | nil => rfl
      | cons value values =>
          have hslot : chunkSlot head (i + (k + 1)) i = head + i := if_pos (by omega)
          simp only [writeChunks, List.take_succ_cons, List.drop_succ_cons, writeBatch]
          rw [hslot, show i + (k + 1) = i + 1 + k by omega, ih, Nat.add_assoc]

variable {cfg : RingConfig} {r r' : Ring α}

/-- The copy loop of a `push_batch` that runs alone. -/
theorem copy_completes (cfg : RingConfig) (r : Ring α) (head n first : Nat) (rest : List α)
    (written : List (Nat × α)) :
    Completes (Ring.pushBatchStep cfg) r (.copy head n first rest written)
      { r with
        slots := writeChunks r.slots head first written.length rest
        producer :=
          { r.producer with
            head := cfg.strategy.wrap (head + n) cfg.cap
            headLocal :=
              if cfg.aarch64 then cfg.strategy.wrap (head + n) cfg.cap else r.producer.headLocal
            pushed := r.producer.pushed ++ (written ++ batchLog head first written.length rest) } }
      (some n) := by
  induction rest generalizing r written with
  | nil =>
      simp only [writeChunks, batchLog, List.append_nil]
      cases harch : cfg.aarch64 with
      | true =>
          refine .step (by simp only [Ring.pushBatchStep, harch, if_true]; rfl) (.returned ?_)
          simp only [Ring.pushBatchStep, if_true]
      | false =>
          refine .returned ?_
          simp only [Ring.pushBatchStep, harch, Bool.false_eq_true, if_false]
  | cons value rest ih =>
      refine .step rfl ?_
      have hrest := ih
        { r with slots := Function.update r.slots (chunkSlot head first written.length) value }
        (written ++ [(chunkSlot head first written.length, value)])
      rw [List.length_append, List.length_singleton, List.append_assoc] at hrest
      exact hrest

/-- The copy loop of a `pop_batch` that runs alone. -/
theorem popCopy_completes (cfg : RingConfig) (r : Ring α) (tail first k : Nat) (out : List α) :
    Completes (Ring.popBatchStep cfg) r (.copy tail (out.length + k) first out)
      { r with
        consumer :=
          { r.consumer with
            tail := cfg.strategy.wrap (tail + (out.length + k)) cfg.cap
            tailLocal :=
              if cfg.aarch64 then cfg.strategy.wrap (tail + (out.length + k)) cfg.cap
              else r.consumer.tailLocal
            popped := r.consumer.popped ++ (out ++
              (List.range k).map fun i => r.slots (chunkSlot tail first (out.length + i))) } }
      (some (out ++ (List.range k).map fun i => r.slots (chunkSlot tail first (out.length + i)))) := by
  induction k generalizing out with
  | zero =>
      simp only [List.range_zero, List.map_nil, List.append_nil, Nat.add_zero]
      cases harch : cfg.aarch64 with
      | true =>
          refine .step (by simp only [Ring.popBatchStep, harch, lt_irrefl, if_true, if_false]; rfl)
            (.returned ?_)
          simp only [Ring.popBatchStep, if_true]
      | false =>
          refine .returned ?_
          simp only [Ring.popBatchStep, harch, lt_irrefl, Bool.false_eq_true, if_false]
  | succ k ih =>
      have hlt : out.length < out.length + (k + 1) := by omega
      refine .step (by simp only [Ring.popBatchStep]; rw [if_pos hlt]) ?_
      have hrest := ih (out ++ [r.slots (chunkSlot tail first out.length)])
      have hout : (out ++ [r.slots (chunkSlot tail first out.length)]) ++
          (List.range k).map (fun i => r.slots (chunkSlot tail first (out.length + 1 + i))) =
          out ++ (List.range (k + 1)).map
            fun i => r.slots (chunkSlot tail first (out.length + i)) := by
        rw [List.range_succ_eq_map, List.map_cons, List.map_map, List.append_assoc]
        simp [Function.comp_def, Nat.add_assoc, Nat.add_comm 1]
      rw [List.length_append, List.length_singleton, hout, Nat.add_assoc, Nat.add_comm 1 k] at hrest
      exact hrest

/-- Element by element or in two chunks, the same values are read. -/
theorem readChunks_eq (slots : Nat → α) (tail : Nat) {n first : Nat} (h : first ≤ n) :
    (List.range n).map (fun i => slots (chunkSlot tail first i)) =
      readBatch slots tail first ++ readBatch slots 0 (n - first) := by
  obtain ⟨k, rfl⟩ := Nat.exists_eq_add_of_le h
  rw [List.range_add, List.map_append, List.map_map, Nat.add_sub_cancel_left]
  simp only [readBatch]
  congr 1
  · refine List.map_congr_left ?_
    intro i hi
    simp only [chunkSlot]
    rw [if_pos (List.mem_range.mp hi)]
  · refine List.map_congr_left ?_
    intro i _
    simp only [chunkSlot, Function.comp_apply]
    rw [if_neg (by omega), Nat.add_sub_cancel_left, Nat.zero_add]

/-! ### A thread that runs alone -/

theorem firstChunk_le {cap start n first : Nat} (h : firstChunk cap start n = some first) :
    first ≤ n := by
  simp only [firstChunk] at h
  obtain ⟨toEnd, -, h⟩ := Option.bind_eq_some_iff.mp h
  obtain ⟨-, -, h⟩ := Option.bind_eq_some_iff.mp h
  cases h
  exact Nat.min_le_left ..

/-- Entering the copy loop, and running it to its end. -/
theorem storeBatch_completes {r₀ : Ring α} {pc : PushBatchPc α} {src : List α} {head free : Nat}
    (h : r₀.pushBatchStep cfg pc = (r, .ofOption (PushBatchPc.begin cfg src head free))) :
    ∃ r', Completes (Ring.pushBatchStep cfg) r₀ pc r'
        ((r.storeBatch cfg src head free).map Prod.snd) ∧
      ∀ out, r.storeBatch cfg src head free = some out → out.1 = r' := by
  simp only [PushBatchPc.begin] at h
  simp only [Ring.storeBatch]
  cases hchunk : firstChunk cfg.cap head (min src.length free) with
  | none =>
      rw [hchunk] at h
      exact ⟨r, .returned h, fun out hout => by cases hout⟩
  | some first =>
      rw [hchunk] at h
      refine ⟨_, .step h (copy_completes ..), ?_⟩
      rintro out hout
      cases hout
      have hle := firstChunk_le hchunk
      have hslots := writeChunks_eq r.slots head 0 first (src.take (min src.length free))
      rw [Nat.zero_add, Nat.add_zero, List.take_take, Nat.min_eq_left hle] at hslots
      simp only [List.length_nil, List.nil_append, hslots]

/-- **A `push_batch` that runs alone.** -/
theorem pushBatch_completes (cfg : RingConfig) (r : Ring α) {src : List α} (hsrc : src ≠ []) :
    ∃ r', Completes (Ring.pushBatchStep cfg) r (.compare src (r.ownHead cfg)) r'
        ((r.pushBatch cfg src).map Prod.snd) ∧
      ∀ out, r.pushBatch cfg src = some out → out.1 = r' := by
  have hne : ¬ src.isEmpty = true := by simpa using hsrc
  simp only [Ring.pushBatch]
  rw [if_neg hne]
  cases hfree : ringFree cfg.cap (r.ownHead cfg) r.producer.tailCached with
  | none =>
      refine ⟨r, .returned ?_, fun out hout => by cases hout⟩
      simp only [Ring.pushBatchStep, hfree]
      rfl
  | some free =>
      dsimp only
      split
      · next hlt =>
          have hstep : r.pushBatchStep cfg (.compare src (r.ownHead cfg)) =
              (r, .running (.refresh src (r.ownHead cfg))) := by
            simp only [Ring.pushBatchStep, hfree, hlt, if_true]
          cases hfree' : ringFree cfg.cap (r.ownHead cfg) r.consumer.tail with
          | none =>
              refine ⟨{ r with producer := { r.producer with tailCached := r.consumer.tail } },
                .step hstep (.returned ?_), fun out hout => by cases hout⟩
              simp only [Ring.pushBatchStep, hfree']
              rfl
          | some free' =>
              dsimp only
              split
              · next hzero =>
                  refine ⟨{ r with producer := { r.producer with tailCached := r.consumer.tail } },
                    .step hstep (.returned ?_), fun out hout => by cases hout; rfl⟩
                  simp only [Ring.pushBatchStep, hfree', hzero, if_true]
                  rfl
              · next hpos =>
                  have hbegin : r.pushBatchStep cfg (.refresh src (r.ownHead cfg)) =
                      ({ r with producer := { r.producer with tailCached := r.consumer.tail } },
                        .ofOption (PushBatchPc.begin cfg src (r.ownHead cfg) free')) := by
                    simp only [Ring.pushBatchStep, hfree', hpos, if_false]
                  obtain ⟨r', hrun, hend⟩ := storeBatch_completes hbegin
                  exact ⟨r', .step hstep hrun, hend⟩
      · next hge =>
          exact storeBatch_completes (by simp only [Ring.pushBatchStep, hfree, hge, if_false])

/-- Entering the copy loop of a `pop_batch`, and running it to its end. -/
theorem loadBatch_completes {r₀ : Ring α} {pc : PopBatchPc α} {dst : List α} {tail avail : Nat}
    (h : r₀.popBatchStep cfg pc = (r, .ofOption (PopBatchPc.begin cfg dst.length tail avail))) :
    ∃ r', Completes (Ring.popBatchStep cfg) r₀ pc r'
        ((r.loadBatch cfg dst tail avail).map fun out => out.2.1.take out.2.2) ∧
      ∀ out, r.loadBatch cfg dst tail avail = some out → out.1 = r' := by
  simp only [PopBatchPc.begin] at h
  simp only [Ring.loadBatch]
  cases hchunk : firstChunk cfg.cap tail (min dst.length avail) with
  | none =>
      rw [hchunk] at h
      exact ⟨r, .returned h, fun out hout => by cases hout⟩
  | some first =>
      rw [hchunk] at h
      have hread := readChunks_eq r.slots tail (firstChunk_le hchunk)
      have hlength : (readBatch r.slots tail first ++
          readBatch r.slots 0 (min dst.length avail - first)).length = min dst.length avail := by
        rw [← hread, List.length_map, List.length_range]
      have hcopy := popCopy_completes cfg r tail first (min dst.length avail) []
      simp only [List.length_nil, Nat.zero_add, List.nil_append, hread] at hcopy
      refine ⟨_, ?_, fun out hout => by cases hout; rfl⟩
      have htake : ((readBatch r.slots tail first ++
          readBatch r.slots 0 (min dst.length avail - first)) ++
            dst.drop (min dst.length avail)).take (min dst.length avail) =
          readBatch r.slots tail first ++ readBatch r.slots 0 (min dst.length avail - first) :=
        List.take_left' hlength
      rw [Option.map_some, Option.map_some]
      dsimp only
      rw [htake]
      exact .step h hcopy

/-- **A `pop_batch` that runs alone.** It returns the front of the buffer it fills. -/
theorem popBatch_completes (cfg : RingConfig) (r : Ring α) {dst : List α} (hdst : dst ≠ []) :
    ∃ r', Completes (Ring.popBatchStep cfg) r (.compare dst.length (r.ownTail cfg)) r'
        ((r.popBatch cfg dst).map fun out => out.2.1.take out.2.2) ∧
      ∀ out, r.popBatch cfg dst = some out → out.1 = r' := by
  have hne : ¬ dst.isEmpty = true := by simpa using hdst
  simp only [Ring.popBatch]
  rw [if_neg hne]
  cases havail : ringLen cfg.cap r.consumer.headCached (r.ownTail cfg) with
  | none =>
      refine ⟨r, .returned ?_, fun out hout => by cases hout⟩
      simp only [Ring.popBatchStep, havail]
      rfl
  | some avail =>
      dsimp only
      split
      · next hlt =>
          have hstep : r.popBatchStep cfg (.compare dst.length (r.ownTail cfg)) =
              (r, .running (.refresh dst.length (r.ownTail cfg))) := by
            simp only [Ring.popBatchStep, havail, hlt, if_true]
          cases havail' : ringLen cfg.cap r.producer.head (r.ownTail cfg) with
          | none =>
              refine ⟨{ r with consumer := { r.consumer with headCached := r.producer.head } },
                .step hstep (.returned ?_), fun out hout => by cases hout⟩
              simp only [Ring.popBatchStep, havail']
              rfl
          | some avail' =>
              dsimp only
              split
              · next hzero =>
                  refine ⟨{ r with consumer := { r.consumer with headCached := r.producer.head } },
                    .step hstep (.returned ?_), fun out hout => by cases hout; rfl⟩
                  simp only [Ring.popBatchStep, havail', hzero, if_true]
                  rfl
              · next hpos =>
                  have hbegin : r.popBatchStep cfg (.refresh dst.length (r.ownTail cfg)) =
                      ({ r with consumer := { r.consumer with headCached := r.producer.head } },
                        .ofOption (PopBatchPc.begin cfg dst.length (r.ownTail cfg) avail')) := by
                    simp only [Ring.popBatchStep, havail', hpos, if_false]
                  obtain ⟨r', hrun, hend⟩ := loadBatch_completes hbegin
                  exact ⟨r', .step hstep hrun, hend⟩
      · next hge =>
          exact loadBatch_completes (by simp only [Ring.popBatchStep, havail, hge, if_false])

/-! ### Batches against the bounded queue -/

/-- What a `push_batch` writes to the logs. Unless the whole batch fits in what the
cached tail leaves free, the size is computed from the true tail. -/
theorem Ring.pushBatch_logs {src : List α} {out : Ring α × Nat}
    (h : r.pushBatch cfg src = some out) :
    out.1.consumer = r.consumer ∧
      (∃ written, out.1.producer.pushed = r.producer.pushed ++ written ∧
        written.map Prod.snd = src.take out.2) ∧
      (out.2 = src.length ∨
        ∃ free, ringFree cfg.cap (r.ownHead cfg) r.consumer.tail = some free ∧
          out.2 = min src.length free) := by
  have hstore : ∀ {r : Ring α} {head free : Nat} {out : Ring α × Nat},
      r.storeBatch cfg src head free = some out → out.1.consumer = r.consumer ∧
        (∃ written, out.1.producer.pushed = r.producer.pushed ++ written ∧
          written.map Prod.snd = src.take out.2) ∧ out.2 = min src.length free := by
    intro r head free out hout
    obtain ⟨first, -, rfl⟩ := Option.map_eq_some_iff.mp hout
    exact ⟨rfl, ⟨_, rfl, batchLog_values ..⟩, rfl⟩
  simp only [Ring.pushBatch] at h
  split at h
  · next hempty =>
      cases h
      rw [List.isEmpty_iff] at hempty
      exact ⟨rfl, ⟨[], by simp, by simp [hempty]⟩, Or.inl (by simp [hempty])⟩
  · split at h
    · cases h
    · next free hfree =>
        split at h
        · split at h
          · cases h
          · next free' hfree' =>
              split at h
              · next hzero =>
                  cases h
                  exact ⟨rfl, ⟨[], by simp, by simp⟩, Or.inr ⟨free', hfree', by simp [hzero]⟩⟩
              · obtain ⟨hconsumer, hwritten, hn⟩ := hstore h
                exact ⟨hconsumer, hwritten, Or.inr ⟨free', hfree', hn⟩⟩
        · next hge =>
            obtain ⟨hconsumer, hwritten, hn⟩ := hstore h
            exact ⟨hconsumer, hwritten, Or.inl (by omega)⟩

/-- What a `pop_batch` writes to the logs and to the buffer. -/
theorem Ring.popBatch_logs {dst : List α} {out : Ring α × List α × Nat}
    (h : r.popBatch cfg dst = some out) :
    out.1.producer = r.producer ∧
      (∃ taken, out.1.consumer.popped = r.consumer.popped ++ taken ∧ taken.length = out.2.2 ∧
        out.2.1 = taken ++ dst.drop out.2.2) ∧
      (out.2.2 = dst.length ∨
        ∃ avail, ringLen cfg.cap r.producer.head (r.ownTail cfg) = some avail ∧
          out.2.2 = min dst.length avail) := by
  have hload : ∀ {r : Ring α} {tail avail : Nat} {out : Ring α × List α × Nat},
      r.loadBatch cfg dst tail avail = some out → out.1.producer = r.producer ∧
        (∃ taken, out.1.consumer.popped = r.consumer.popped ++ taken ∧ taken.length = out.2.2 ∧
          out.2.1 = taken ++ dst.drop out.2.2) ∧ out.2.2 = min dst.length avail := by
    intro r tail avail out hout
    obtain ⟨first, hchunk, rfl⟩ := Option.map_eq_some_iff.mp hout
    refine ⟨rfl, ⟨_, rfl, ?_, rfl⟩, rfl⟩
    rw [← readChunks_eq r.slots tail (firstChunk_le hchunk), List.length_map, List.length_range]
  simp only [Ring.popBatch] at h
  split at h
  · next hempty =>
      cases h
      rw [List.isEmpty_iff] at hempty
      exact ⟨rfl, ⟨[], by simp, rfl, by simp⟩, Or.inl (by simp [hempty])⟩
  · split at h
    · cases h
    · next avail havail =>
        split at h
        · split at h
          · cases h
          · next avail' havail' =>
              split at h
              · next hzero =>
                  cases h
                  exact ⟨rfl, ⟨[], by simp, rfl, by simp⟩, Or.inr ⟨avail', havail', by simp [hzero]⟩⟩
              · obtain ⟨hproducer, htaken, hn⟩ := hload h
                exact ⟨hproducer, htaken, Or.inr ⟨avail', havail', hn⟩⟩
        · next hge =>
            obtain ⟨hproducer, htaken, hn⟩ := hload h
            exact ⟨hproducer, htaken, Or.inl (by omega)⟩

/-- At rest a `push_batch` does not underflow, and ends at rest. -/
theorem Ring.AtRest.pushBatch (hmask : cfg.strategy = .pow2Masked) (h : r.AtRest cfg)
    (src : List α) : ∃ out, r.pushBatch cfg src = some out ∧ out.1.AtRest cfg := by
  by_cases hsrc : src = []
  · subst hsrc
    exact ⟨(r, 0), rfl, h⟩
  · obtain ⟨a, hsim, hproducer, hconsumer⟩ := h
    obtain ⟨r', hrun, hend⟩ := pushBatch_completes cfg r hsrc
    obtain ⟨hrest, -, hok⟩ := hrun.producer_atRest
      (fun _ _ _ h hpc => h.pushBatchStep hmask hpc) hsim ⟨hproducer, hsim.ownHead hproducer⟩
      hconsumer
    obtain ⟨n, hn⟩ := Option.ne_none_iff_exists'.mp hok
    obtain ⟨out, hout, -⟩ := Option.map_eq_some_iff.mp hn
    refine ⟨out, hout, ?_⟩
    rw [hend out hout]
    exact hrest

theorem Ring.AtRest.popBatch (hmask : cfg.strategy = .pow2Masked) (h : r.AtRest cfg)
    (dst : List α) : ∃ out, r.popBatch cfg dst = some out ∧ out.1.AtRest cfg := by
  by_cases hdst : dst = []
  · subst hdst
    exact ⟨(r, [], 0), rfl, h⟩
  · obtain ⟨a, hsim, hproducer, hconsumer⟩ := h
    obtain ⟨r', hrun, hend⟩ := popBatch_completes cfg r hdst
    obtain ⟨hrest, -, hok⟩ := hrun.consumer_atRest
      (fun _ _ _ h hpc => h.popBatchStep hmask hpc) hsim ⟨hconsumer, hsim.ownTail hconsumer⟩
      hproducer
    obtain ⟨n, hn⟩ := Option.ne_none_iff_exists'.mp hok
    obtain ⟨out, hout, -⟩ := Option.map_eq_some_iff.mp hn
    refine ⟨out, hout, ?_⟩
    rw [hend out hout]
    exact hrest

/-- The modular distance between the true indices is the number of elements held. -/
theorem Ring.Positions.ringLen_eq (h : r.Positions cfg) :
    ringLen cfg.cap (r.producer.pushed.length % cfg.cap) (r.consumer.popped.length % cfg.cap) =
      some r.contents.length := by
  have hpos := cfg.cap_pos
  have hpushed := h.pushed_le
  have hlen := Mantis.ringLen_eq r.consumer.popped.length
    (show r.producer.pushed.length - r.consumer.popped.length < cfg.cap by omega)
  rwa [Nat.add_sub_cancel' h.popped_le, ← r.length_contents] at hlen

theorem Ring.Positions.ringFree_eq (h : r.Positions cfg) :
    ringFree cfg.cap (r.producer.pushed.length % cfg.cap)
        (r.consumer.popped.length % cfg.cap) = some (cfg.cap - 1 - r.contents.length) := by
  have hpos := cfg.cap_pos
  have hpushed := h.pushed_le
  have hfree := Mantis.ringFree_eq r.consumer.popped.length
    (show r.producer.pushed.length - r.consumer.popped.length < cfg.cap by omega)
  rwa [Nat.add_sub_cancel' h.popped_le, ← r.length_contents] at hfree

/-- **Batch push.** It accepts what iterated pushes accept. -/
theorem Ring.Holds.pushBatch (hmask : cfg.strategy = .pow2Masked) {q : Fifo α (cfg.cap - 1)}
    (h : r.Holds cfg q) (src : List α) :
    ∃ out, r.pushBatch cfg src = some out ∧ out.2 = (q.pushAll src).2 ∧
      out.1.Holds cfg (q.pushAll src).1 := by
  obtain ⟨hrest, hitems⟩ := h
  obtain ⟨out, hout, hrest'⟩ := hrest.pushBatch hmask src
  obtain ⟨hconsumer, ⟨written, hpushed, hvalues⟩, hsize⟩ := Ring.pushBatch_logs hout
  have hcontents := hrest.positions.contents_push hpushed (by rw [hconsumer])
  rw [hvalues] at hcontents
  obtain ⟨hqitems, hqcount⟩ := q.pushAll_items src
  rw [← hitems] at hqitems hqcount
  -- the true free space bounds the batch, whatever the cache says
  have hn : out.2 = min src.length (cfg.cap - 1 - r.contents.length) := by
    rcases hsize with hall | ⟨free, hfree, hn⟩
    · have hle := hrest'.positions.length_contents_le
      rw [hcontents, hall, List.take_length, List.length_append] at hle
      omega
    · rw [hrest.positions.ownHead, hrest.positions.tail, hrest.positions.ringFree_eq] at hfree
      cases hfree
      exact hn
  refine ⟨out, hout, hn.trans hqcount.symm, hrest', ?_⟩
  rw [hcontents, hn, hqitems]

/-- **Batch pop.** It takes what iterated pops take, and leaves the rest of the buffer. -/
theorem Ring.Holds.popBatch (hmask : cfg.strategy = .pow2Masked) {q : Fifo α (cfg.cap - 1)}
    (h : r.Holds cfg q) (dst : List α) :
    ∃ out, r.popBatch cfg dst = some out ∧ out.2.2 = (q.popAll dst.length).2.length ∧
      out.2.1 = (q.popAll dst.length).2 ++ dst.drop (q.popAll dst.length).2.length ∧
      out.1.Holds cfg (q.popAll dst.length).1 := by
  obtain ⟨hrest, hitems⟩ := h
  obtain ⟨out, hout, hrest'⟩ := hrest.popBatch hmask dst
  obtain ⟨hproducer, ⟨taken, hpopped, hlength, hbuffer⟩, hsize⟩ := Ring.popBatch_logs hout
  have hcontents := hrest'.positions.contents_pop hpopped (by rw [hproducer])
  obtain ⟨hqitems, hqout⟩ := q.popAll_items dst.length
  rw [← hitems] at hqitems hqout
  have hn : taken.length = min dst.length r.contents.length := by
    rcases hsize with hall | ⟨avail, havail, hn⟩
    · have hle : taken.length ≤ r.contents.length := by
        rw [hcontents, List.length_append]
        exact Nat.le_add_right ..
      omega
    · rw [hrest.positions.head, hrest.positions.ownTail, hrest.positions.ringLen_eq] at havail
      cases havail
      omega
  -- what was taken is the front of the contents, cut at the shorter of the two lengths
  have htaken : r.contents.take dst.length = taken := by
    rw [List.take_eq_take_min, ← hn, hcontents, List.take_left]
  have hleft : r.contents.drop dst.length = out.1.contents := by
    rw [List.drop_eq_drop_min, ← hn, hcontents, List.drop_left]
  rw [hqout, htaken, hlength]
  exact ⟨out, hout, rfl, hbuffer, hrest', by rw [hqitems, hleft]⟩

/-! ### Iterated single operations -/

/-- Push one element after the other until one fails; the number pushed. -/
def Ring.pushEach (cfg : RingConfig) (r : Ring α) : List α → Ring α × Nat
  | [] => (r, 0)
  | value :: values =>
      match r.push cfg value with
      | (r, true) => ((r.pushEach cfg values).1, (r.pushEach cfg values).2 + 1)
      | (r, false) => (r, 0)

/-- Pop up to `n` times, until one fails; the elements popped. -/
def Ring.popEach (cfg : RingConfig) (r : Ring α) : Nat → Ring α × List α
  | 0 => (r, [])
  | n + 1 =>
      match r.pop cfg with
      | (r, some value) => ((r.popEach cfg n).1, value :: (r.popEach cfg n).2)
      | (r, none) => (r, [])

theorem Ring.Holds.pushEach {q : Fifo α (cfg.cap - 1)} (h : r.Holds cfg q) (src : List α) :
    (r.pushEach cfg src).2 = (q.pushAll src).2 ∧
      (r.pushEach cfg src).1.Holds cfg (q.pushAll src).1 := by
  induction src generalizing r q with
  | nil => exact ⟨rfl, h⟩
  | cons value src ih =>
      obtain ⟨hok, hnext⟩ := h.push value
      simp only [Ring.pushEach, Fifo.pushAll]
      generalize r.push cfg value = pushed at hok hnext ⊢
      generalize q.push value = pushed' at hok hnext ⊢
      obtain ⟨r, ok⟩ := pushed
      obtain ⟨q, ok'⟩ := pushed'
      obtain rfl : ok = ok' := hok
      cases ok with
      | true =>
          obtain ⟨hcount, hrest⟩ := ih hnext
          exact ⟨congrArg (· + 1) hcount, hrest⟩
      | false => exact ⟨rfl, hnext⟩

theorem Ring.Holds.popEach {q : Fifo α (cfg.cap - 1)} (h : r.Holds cfg q) (n : Nat) :
    (r.popEach cfg n).2 = (q.popAll n).2 ∧ (r.popEach cfg n).1.Holds cfg (q.popAll n).1 := by
  induction n generalizing r q with
  | zero => exact ⟨rfl, h⟩
  | succ n ih =>
      obtain ⟨hout, hnext⟩ := h.pop
      simp only [Ring.popEach, Fifo.popAll]
      generalize r.pop cfg = popped at hout hnext ⊢
      generalize q.pop = popped' at hout hnext ⊢
      obtain ⟨r, value⟩ := popped
      obtain ⟨q, value'⟩ := popped'
      obtain rfl : value = value' := hout
      cases value with
      | some value =>
          obtain ⟨hvalues, hrest⟩ := ih hnext
          exact ⟨congrArg (value :: ·) hvalues, hrest⟩
      | none => exact ⟨rfl, hnext⟩

namespace CopyRingEngine

/-- A call on a single thread. -/
inductive Call (α : Type)
  | push (value : α)
  | pop
  | pushBatch (src : List α)
  | popBatch (dst : List α)
  | len
  deriving DecidableEq, Repr

/-- What a call returns; a `pop_batch` returns with the caller's buffer. -/
inductive Answer (α : Type)
  | pushed (ok : Bool)
  | popped (out : Option α)
  | accepted (n : Nat)
  | filled (dst : List α) (n : Nat)
  | len (n : Nat)
  /-- A subtraction has underflowed. -/
  | panicked
  deriving DecidableEq, Repr

/-- `len`, with its checked subtractions. -/
def len (cfg : RingConfig) (r : Ring α) : Option Nat :=
  ringLen cfg.cap r.producer.head r.consumer.tail

/-- One call on the ring. -/
def call (cfg : RingConfig) (r : Ring α) : Call α → Ring α × Answer α
  | .push value => ((r.push cfg value).1, .pushed (r.push cfg value).2)
  | .pop => ((r.pop cfg).1, .popped (r.pop cfg).2)
  | .pushBatch src =>
      match r.pushBatch cfg src with
      | some (r, n) => (r, .accepted n)
      | none => (r, .panicked)
  | .popBatch dst =>
      match r.popBatch cfg dst with
      | some (r, dst, n) => (r, .filled dst n)
      | none => (r, .panicked)
  | .len =>
      match len cfg r with
      | some n => (r, .len n)
      | none => (r, .panicked)

/-- The same call on a bounded queue, where a batch is an iterated operation. -/
def fifoCall {cap : Nat} (q : Fifo α cap) : Call α → Fifo α cap × Answer α
  | .push value => ((q.push value).1, .pushed (q.push value).2)
  | .pop => (q.pop.1, .popped q.pop.2)
  | .pushBatch src => ((q.pushAll src).1, .accepted (q.pushAll src).2)
  | .popBatch dst =>
      let taken := (q.popAll dst.length).2
      ((q.popAll dst.length).1, .filled (taken ++ dst.drop taken.length) taken.length)
  | .len => (q, .len q.items.length)

/-- `len` is the number of elements held. -/
theorem len_of_holds {cfg : RingConfig} {r : Ring α} {q : Fifo α (cfg.cap - 1)}
    (h : r.Holds cfg q) : len cfg r = some q.items.length := by
  simp only [len]
  rw [h.1.positions.head, h.1.positions.tail, h.1.positions.ringLen_eq, h.2]

/-- **One call.** -/
theorem call_simulates {cfg : RingConfig} (hmask : cfg.strategy = .pow2Masked) :
    Simulates (Ring.Holds cfg) (call (α := α) cfg) fifoCall := by
  intro r q c h
  cases c with
  | push value =>
      obtain ⟨hok, hnext⟩ := h.push value
      exact ⟨congrArg Answer.pushed hok, hnext⟩
  | pop =>
      obtain ⟨hout, hnext⟩ := h.pop
      exact ⟨congrArg Answer.popped hout, hnext⟩
  | pushBatch src =>
      obtain ⟨⟨r', n⟩, hout, hn, hnext⟩ := h.pushBatch hmask src
      simp only [call, hout]
      exact ⟨congrArg Answer.accepted hn, hnext⟩
  | popBatch dst =>
      obtain ⟨⟨r', dst', n⟩, hout, hn, hdst, hnext⟩ := h.popBatch hmask dst
      simp only [call, hout]
      refine ⟨?_, hnext⟩
      rw [show dst' = _ from hdst, show n = _ from hn]
      rfl
  | len =>
      simp only [call, len_of_holds h]
      exact ⟨rfl, h⟩

/-- Some schedule of the two threads leaves this ring, with both threads idle. -/
def Reachable (cfg : RingConfig) (r : Ring α) : Prop :=
  ∃ slots schedule lastPush lastPop,
    run (step cfg) (new slots) schedule = ⟨r, .idle lastPush, .idle lastPop⟩

theorem Reachable.atRest {cfg : RingConfig} (hmask : cfg.strategy = .pow2Masked) {r : Ring α}
    (h : Reachable cfg r) : r.AtRest cfg := by
  obtain ⟨slots, schedule, lastPush, lastPop, hrun⟩ := h
  have hexplained : Always (step cfg) (Explained cfg) (new slots) schedule :=
    always_of_step (fun _ act hs => hs.step hmask act) (explained_new cfg slots) schedule
  obtain ⟨a, ha⟩ := hexplained.last
  rw [hrun] at ha
  exact ⟨a, ha.ring, ha.producer, ha.consumer⟩

/-- **Batches are iterated single operations.** Take a masked ring in any reachable
state, after any further calls on one thread. A `push_batch` accepts exactly the first
elements that the true free space admits, and no later calls tell the ring from one to
which they were pushed one by one. A `pop_batch` moves the oldest elements to the front of
the buffer, leaves the rest of it alone, and no later calls tell the ring from one popped
one by one. All calls together give the answers of a bounded queue that starts with the
elements held. -/
theorem batch_eq_iterated {cfg : RingConfig} (hmask : cfg.strategy = .pow2Masked) {r₀ : Ring α}
    (hreach : Reachable cfg r₀) (calls : List (Call α)) :
    let r := final (call cfg) r₀ calls
    (∀ src, ∃ r',
      r.pushBatch cfg src = some (r', min src.length (cfg.cap - 1 - r.contents.length)) ∧
      r'.contents =
        r.contents ++ src.take (min src.length (cfg.cap - 1 - r.contents.length)) ∧
      (r.pushEach cfg src).2 = min src.length (cfg.cap - 1 - r.contents.length) ∧
      ∀ later, outputs (call cfg) r' later = outputs (call cfg) (r.pushEach cfg src).1 later) ∧
    (∀ dst, ∃ r',
      r.popBatch cfg dst = some (r',
        r.contents.take dst.length ++ dst.drop (min dst.length r.contents.length),
        min dst.length r.contents.length) ∧
      r'.contents = r.contents.drop dst.length ∧
      (r.popEach cfg dst.length).2 = r.contents.take dst.length ∧
      ∀ later,
        outputs (call cfg) r' later = outputs (call cfg) (r.popEach cfg dst.length).1 later) ∧
    ∃ q : Fifo α (cfg.cap - 1), q.items = r₀.contents ∧
      outputs (call cfg) r₀ calls = outputs fifoCall q calls := by
  have hsim : Simulates (Ring.Holds cfg) (call (α := α) cfg) fifoCall := call_simulates hmask
  obtain ⟨q₀, hq₀⟩ := (hreach.atRest hmask).holds
  obtain ⟨hrest, hitems⟩ := hsim.final hq₀ calls
  intro r
  have hq : r.Holds cfg (final fifoCall q₀ calls) := ⟨hrest, hitems⟩
  refine ⟨?_, ?_, q₀, hq₀.2.symm, hsim.outputs_eq hq₀ calls⟩
  · intro src
    obtain ⟨⟨r', n⟩, hout, hn, hholds⟩ := hq.pushBatch hmask src
    obtain ⟨hcount, hholds'⟩ := hq.pushEach src
    obtain ⟨hpushed, hsize⟩ := (final fifoCall q₀ calls).pushAll_items src
    rw [← hitems] at hpushed hsize
    refine ⟨r', ?_, ?_, ?_, ?_⟩
    · rw [hout, show n = _ from hn, hsize]
    · rw [hholds.2, hpushed]
    · rw [hcount, hsize]
    · intro later
      rw [hsim.outputs_eq hholds later, hsim.outputs_eq hholds' later]
  · intro dst
    obtain ⟨⟨r', dst', n⟩, hout, hn, hdst, hholds⟩ := hq.popBatch hmask dst
    obtain ⟨hvalues, hholds'⟩ := hq.popEach dst.length
    obtain ⟨hleft, htaken⟩ := (final fifoCall q₀ calls).popAll_items dst.length
    rw [← hitems] at hleft htaken
    rw [htaken, List.length_take] at hn hdst
    refine ⟨r', ?_, ?_, ?_, ?_⟩
    · rw [hout, show n = _ from hn, show dst' = _ from hdst]
    · rw [hholds.2, hleft]
    · rw [hvalues, htaken]
    · intro later
      rw [hsim.outputs_eq hholds later, hsim.outputs_eq hholds' later]

/-- A ring of four slots after three pushes and two pops: a batch of four fills it around
the wrap point. -/
theorem batch_eq_iterated_wrapped :
    Reachable (.masked 2 false) (Ring.new fun _ => 0) ∧
    outputs (call (.masked 2 false)) (Ring.new fun _ => 0)
        [.push 1, .push 2, .push 3, .pop, .pop, .pushBatch [4, 5, 6, 7], .popBatch [0, 0, 0, 0, 0]] =
      outputs fifoCall (.empty : Fifo Nat 3)
        [.push 1, .push 2, .push 3, .pop, .pop, .pushBatch [4, 5, 6, 7],
          .popBatch [0, 0, 0, 0, 0]] := by
  have hreach : Reachable (.masked 2 false) (Ring.new fun _ => 0) :=
    ⟨fun _ => 0, [], none, none, rfl⟩
  have hmask : (RingConfig.masked 2 false).strategy = .pow2Masked := rfl
  obtain ⟨q, hitems, hout⟩ := (batch_eq_iterated hmask hreach
    [.push 1, .push 2, .push 3, .pop, .pop, .pushBatch [4, 5, 6, 7],
      .popBatch [0, 0, 0, 0, 0]]).2.2
  refine ⟨hreach, ?_⟩
  have hq : q = .empty := Fifo.ext hitems
  rw [hout, hq]
  rfl

example : outputs (call (.masked 2 true)) (Ring.new fun _ => 0)
      [.push 1, .push 2, .push 3, .pop, .pop, .pushBatch [4, 5, 6, 7], .len,
        .popBatch [0, 0, 0, 0, 9]] =
    [.pushed true, .pushed true, .pushed true, .popped (some 1), .popped (some 2), .accepted 2,
      .len 3, .filled [3, 4, 5, 0, 9] 3] := by decide

end CopyRingEngine

end Mantis
