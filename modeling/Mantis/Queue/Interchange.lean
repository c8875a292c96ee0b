import Mantis.Queue.CopySequential

/-!
# Mantis.Queue.Interchange

The two index strategies in one `CopyRingEngine`. `Pow2Masked` reduces any index modulo the
capacity; `BranchWrap` sends every index from the capacity on to slot zero. They agree up to
the capacity itself, which is all that `push` and `pop` need, but a batch advances its index
by its whole length: a batch that runs past the end of the slot array leaves `BranchWrap` at
slot zero, and `Pow2Masked` after its second chunk.

`Fits` says which calls do not run past the end. Two rings that differ only in the strategy
answer alike exactly as long as every call fits.
-/

namespace Mantis

open Objects Runs

variable {α : Type} {k : Nat} {aarch64 : Bool} {r : Ring α}

/-! ### The strategies -/

namespace IndexStrategy

theorem wrap_eq_of_le {index : Nat} (h : index ≤ 2 ^ k) :
    branchWrap.wrap index (2 ^ k) = pow2Masked.wrap index (2 ^ k) := by
  rw [wrap_masked ⟨k, rfl⟩]
  show (if 2 ^ k ≤ index then 0 else index) = _
  split
  · next hle => rw [Nat.le_antisymm h hle, Nat.mod_self]
  · next hlt => exact (Nat.mod_eq_of_lt (Nat.lt_of_not_le hlt)).symm

theorem wrap_ne_of_lt {index : Nat} (h : 2 ^ k < index) (hlt : index < 2 * 2 ^ k) :
    branchWrap.wrap index (2 ^ k) ≠ pow2Masked.wrap index (2 ^ k) := by
  rw [wrap_masked ⟨k, rfl⟩]
  show (if 2 ^ k ≤ index then 0 else index) ≠ _
  rw [if_pos (Nat.le_of_lt h), Nat.mod_eq_sub_mod (Nat.le_of_lt h), Nat.mod_eq_of_lt (by omega)]
  omega

theorem wrap_lt (strategy : IndexStrategy) (index : Nat) :
    strategy.wrap index (2 ^ k) < 2 ^ k := by
  cases strategy with
  | pow2Masked =>
      rw [wrap_masked ⟨k, rfl⟩]
      exact Nat.mod_lt _ (Nat.two_pow_pos k)
  | branchWrap =>
      show (if 2 ^ k ≤ index then 0 else index) < 2 ^ k
      split
      · exact Nat.two_pow_pos k
      · next hlt => exact Nat.lt_of_not_le hlt

end IndexStrategy

theorem ownHead_branching (r : Ring α) :
    r.ownHead (.branching k aarch64) = r.ownHead (.masked k aarch64) := rfl

theorem ownTail_branching (r : Ring α) :
    r.ownTail (.branching k aarch64) = r.ownTail (.masked k aarch64) := rfl

theorem cap_branching : (RingConfig.branching k aarch64).cap = 2 ^ k := rfl

theorem cap_masked : (RingConfig.masked k aarch64).cap = 2 ^ k := rfl

theorem strategy_branching : (RingConfig.branching k aarch64).strategy = .branchWrap := rfl

theorem strategy_masked : (RingConfig.masked k aarch64).strategy = .pow2Masked := rfl

/-! ### Single elements -/

theorem push_branching (h : r.ownHead (.masked k aarch64) < 2 ^ k) (value : α) :
    r.push (.branching k aarch64) value = r.push (.masked k aarch64) value := by
  have hwrap : IndexStrategy.branchWrap.wrap (r.ownHead (.masked k aarch64) + 1) (2 ^ k) =
      IndexStrategy.pow2Masked.wrap (r.ownHead (.masked k aarch64) + 1) (2 ^ k) :=
    IndexStrategy.wrap_eq_of_le (Nat.succ_le_of_lt h)
  simp only [Ring.push, ownHead_branching, cap_branching, cap_masked, strategy_branching,
    strategy_masked, hwrap]
  rfl

theorem pop_branching (h : r.ownTail (.masked k aarch64) < 2 ^ k) :
    r.pop (.branching k aarch64) = r.pop (.masked k aarch64) := by
  have hwrap : IndexStrategy.branchWrap.wrap (r.ownTail (.masked k aarch64) + 1) (2 ^ k) =
      IndexStrategy.pow2Masked.wrap (r.ownTail (.masked k aarch64) + 1) (2 ^ k) :=
    IndexStrategy.wrap_eq_of_le (Nat.succ_le_of_lt h)
  simp only [Ring.pop, Ring.load, ownTail_branching, cap_branching, cap_masked,
    strategy_branching, strategy_masked, hwrap]
  rfl

/-! ### Batches -/

/-- The published index of the producer, and its local copy. -/
def Ring.withHead (aarch64 : Bool) (r : Ring α) (head : Nat) : Ring α :=
  { r with
    producer :=
      { r.producer with
        head
        headLocal := if aarch64 then head else r.producer.headLocal } }

/-- The published index of the consumer, and its local copy. -/
def Ring.withTail (aarch64 : Bool) (r : Ring α) (tail : Nat) : Ring α :=
  { r with
    consumer :=
      { r.consumer with
        tail
        tailLocal := if aarch64 then tail else r.consumer.tailLocal } }

/-- The chunks are written and logged before the index is wrapped: the strategies differ in
the head they publish and in nothing else. -/
theorem storeBatch_forms {src : List α} {head free : Nat} {out : Ring α × Nat}
    (hout : r.storeBatch (.masked k aarch64) src head free = some out) :
    ∃ r' : Ring α,
      out.1 = r'.withHead aarch64 (IndexStrategy.pow2Masked.wrap (head + out.2) (2 ^ k)) ∧
      r.storeBatch (.branching k aarch64) src head free = some (r'.withHead aarch64
        (IndexStrategy.branchWrap.wrap (head + out.2) (2 ^ k)), out.2) := by
  obtain ⟨first, hfirst, rfl⟩ := Option.map_eq_some_iff.mp hout
  rw [cap_masked] at hfirst
  refine ⟨{ r with
    slots := writeBatch (writeBatch r.slots head (src.take first)) 0
      ((src.take (min src.length free)).drop first)
    producer :=
      { r.producer with
        pushed := r.producer.pushed ++
          batchLog head first 0 (src.take (min src.length free)) } }, rfl, ?_⟩
  simp only [Ring.storeBatch, cap_branching, hfirst, Option.map_some]
  rfl

/-- A `push_batch` takes nothing, or ends in `storeBatch`. -/
theorem pushBatch_forms {src : List α} {out : Ring α × Nat}
    (hout : r.pushBatch (.masked k aarch64) src = some out) :
    (out.2 = 0 ∧ r.pushBatch (.branching k aarch64) src = some out) ∨
      ∃ r' : Ring α,
        out.1 = r'.withHead aarch64
          (IndexStrategy.pow2Masked.wrap (r.ownHead (.masked k aarch64) + out.2) (2 ^ k)) ∧
        r.pushBatch (.branching k aarch64) src = some (r'.withHead aarch64
          (IndexStrategy.branchWrap.wrap (r.ownHead (.masked k aarch64) + out.2) (2 ^ k)),
            out.2) := by
  simp only [Ring.pushBatch, ownHead_branching, cap_branching, cap_masked] at hout ⊢
  split at hout
  · next hempty =>
      cases hout
      exact Or.inl ⟨rfl, by rw [if_pos hempty]⟩
  · next hne =>
      rw [if_neg hne]
      split at hout
      · cases hout
      · next free hfree =>
          split at hout
          · next hlt =>
              rw [if_pos hlt]
              split at hout
              · cases hout
              · next free' hfree' =>
                  split at hout
                  · next hzero =>
                      cases hout
                      exact Or.inl ⟨rfl, by rw [if_pos hzero]⟩
                  · next hpos =>
                      rw [if_neg hpos]
                      exact Or.inr (storeBatch_forms hout)
          · next hge =>
              rw [if_neg hge]
              exact Or.inr (storeBatch_forms hout)

/-- The chunks are read and logged before the index is wrapped. -/
theorem loadBatch_forms {dst : List α} {tail avail : Nat} {out : Ring α × List α × Nat}
    (hout : r.loadBatch (.masked k aarch64) dst tail avail = some out) :
    ∃ r' : Ring α,
      out.1 = r'.withTail aarch64 (IndexStrategy.pow2Masked.wrap (tail + out.2.2) (2 ^ k)) ∧
      r.loadBatch (.branching k aarch64) dst tail avail = some (r'.withTail aarch64
        (IndexStrategy.branchWrap.wrap (tail + out.2.2) (2 ^ k)), out.2) := by
  obtain ⟨first, hfirst, rfl⟩ := Option.map_eq_some_iff.mp hout
  rw [cap_masked] at hfirst
  refine ⟨{ r with
    consumer :=
      { r.consumer with
        popped := r.consumer.popped ++ (readBatch r.slots tail first ++
          readBatch r.slots 0 (min dst.length avail - first)) } }, rfl, ?_⟩
  simp only [Ring.loadBatch, cap_branching, hfirst, Option.map_some]
  rfl

/-- A `pop_batch` takes nothing, or ends in `loadBatch`. -/
theorem popBatch_forms {dst : List α} {out : Ring α × List α × Nat}
    (hout : r.popBatch (.masked k aarch64) dst = some out) :
    (out.2.2 = 0 ∧ r.popBatch (.branching k aarch64) dst = some out) ∨
      ∃ r' : Ring α,
        out.1 = r'.withTail aarch64
          (IndexStrategy.pow2Masked.wrap (r.ownTail (.masked k aarch64) + out.2.2) (2 ^ k)) ∧
        r.popBatch (.branching k aarch64) dst = some (r'.withTail aarch64
          (IndexStrategy.branchWrap.wrap (r.ownTail (.masked k aarch64) + out.2.2) (2 ^ k)),
            out.2) := by
  simp only [Ring.popBatch, ownTail_branching, cap_branching, cap_masked] at hout ⊢
  split at hout
  · next hempty =>
      cases hout
      exact Or.inl ⟨rfl, by rw [if_pos hempty]⟩
  · next hne =>
      rw [if_neg hne]
      split at hout
      · cases hout
      · next avail havail =>
          split at hout
          · next hlt =>
              rw [if_pos hlt]
              split at hout
              · cases hout
              · next avail' havail' =>
                  split at hout
                  · next hzero =>
                      cases hout
                      exact Or.inl ⟨rfl, by rw [if_pos hzero]⟩
                  · next hpos =>
                      rw [if_neg hpos]
                      exact Or.inr (loadBatch_forms hout)
          · next hge =>
              rw [if_neg hge]
              exact Or.inr (loadBatch_forms hout)

/-! ### Calls that fit -/

namespace CopyRingEngine

/-- The call does not run past the end of the slot array: a batch of the size that the ring
admits ends at the last slot at the latest. -/
def Fits (cfg : RingConfig) (r : Ring α) : Call α → Prop
  | .pushBatch src => r.producer.head + min src.length (cfg.cap - 1 - r.len cfg) ≤ cfg.cap
  | .popBatch dst => r.consumer.tail + min dst.length (r.len cfg) ≤ cfg.cap
  | .push _ | .pop | .len => True

instance (cfg : RingConfig) (r : Ring α) : (c : Call α) → Decidable (Fits cfg r c)
  | .pushBatch _ | .popBatch _ => Nat.decLe _ _
  | .push _ | .pop | .len => isTrue trivial

/-- The indices of a masked ring at rest, as the strategies see them. -/
theorem atRest_indices (h : r.AtRest (.masked k aarch64)) :
    r.ownHead (.masked k aarch64) = r.producer.head ∧
      r.ownTail (.masked k aarch64) = r.consumer.tail ∧
      r.producer.head < 2 ^ k ∧ r.consumer.tail < 2 ^ k ∧
      r.len (.branching k aarch64) = r.contents.length ∧ r.contents.length < 2 ^ k := by
  have hpositions := h.positions
  have hpos := Nat.two_pow_pos k
  have hle := hpositions.length_contents_le
  rw [cap_masked] at hle
  refine ⟨?_, ?_, ?_, ?_, hpositions.len_eq, by omega⟩
  · rw [hpositions.ownHead, hpositions.head]
  · rw [hpositions.ownTail, hpositions.tail]
  · rw [hpositions.head]
    exact Nat.mod_lt _ hpos
  · rw [hpositions.tail]
    exact Nat.mod_lt _ hpos

/-- A masked `push_batch` at rest accepts what the free space admits. -/
theorem pushBatch_size (h : r.AtRest (.masked k aarch64)) (src : List α) :
    ∃ out, r.pushBatch (.masked k aarch64) src = some out ∧
      out.2 = min src.length (2 ^ k - 1 - r.contents.length) := by
  obtain ⟨q, hq⟩ := h.holds
  obtain ⟨out, hout, hcount, -⟩ := hq.pushBatch rfl src
  refine ⟨out, hout, ?_⟩
  rw [hcount, (q.pushAll_items src).2, ← hq.2]
  rfl

/-- A masked `pop_batch` at rest takes what is held. -/
theorem popBatch_size (h : r.AtRest (.masked k aarch64)) (dst : List α) :
    ∃ out, r.popBatch (.masked k aarch64) dst = some out ∧
      out.2.2 = min dst.length r.contents.length := by
  obtain ⟨q, hq⟩ := h.holds
  obtain ⟨out, hout, hcount, -⟩ := hq.popBatch rfl dst
  refine ⟨out, hout, ?_⟩
  rw [hcount, (q.popAll_items dst.length).2, ← hq.2, List.length_take]

/-- A `push_batch` of `n` elements fits when its end does. -/
theorem fits_pushBatch_iff (h : r.AtRest (.masked k aarch64)) {src : List α} {n : Nat}
    (hn : n = min src.length (2 ^ k - 1 - r.contents.length)) :
    Fits (.branching k aarch64) r (.pushBatch src) ↔
      r.ownHead (.masked k aarch64) + n ≤ 2 ^ k := by
  obtain ⟨hown, -, -, -, hlen, -⟩ := atRest_indices h
  rw [hown, hn, ← hlen]
  rfl

/-- A `pop_batch` of `n` elements fits when its end does. -/
theorem fits_popBatch_iff (h : r.AtRest (.masked k aarch64)) {dst : List α} {n : Nat}
    (hn : n = min dst.length r.contents.length) :
    Fits (.branching k aarch64) r (.popBatch dst) ↔
      r.ownTail (.masked k aarch64) + n ≤ 2 ^ k := by
  obtain ⟨-, hownTail, -, -, hlen, -⟩ := atRest_indices h
  rw [hownTail, hn, ← hlen]
  rfl

/-- From one ring at rest both strategies give the same answer to the next call. -/
theorem call_answer (h : r.AtRest (.masked k aarch64)) (c : Call α) :
    (call (.branching k aarch64) r c).2 = (call (.masked k aarch64) r c).2 := by
  obtain ⟨hown, hownTail, hhead, htail, -, -⟩ := atRest_indices h
  cases c with
  | push value => simp only [call, push_branching (hown ▸ hhead)]
  | pop => simp only [call, pop_branching (hownTail ▸ htail)]
  | pushBatch src =>
      obtain ⟨out, hout, -⟩ := pushBatch_size h src
      rcases pushBatch_forms hout with ⟨-, hsame⟩ | ⟨r', -, hbranch⟩
      · simp only [call, hsame, hout]
      · simp only [call, hbranch, hout]
  | popBatch dst =>
      obtain ⟨out, hout, -⟩ := popBatch_size h dst
      rcases popBatch_forms hout with ⟨-, hsame⟩ | ⟨r', -, hbranch⟩
      · simp only [call, hsame, hout]
      · simp only [call, hbranch, hout]
  | len => rfl

/-- A call that fits leaves the same ring. -/
theorem call_of_fits (h : r.AtRest (.masked k aarch64)) {c : Call α}
    (hfits : Fits (.branching k aarch64) r c) :
    call (.branching k aarch64) r c = call (.masked k aarch64) r c := by
  obtain ⟨hown, hownTail, hhead, htail, -, -⟩ := atRest_indices h
  cases c with
  | push value => simp only [call, push_branching (hown ▸ hhead)]
  | pop => simp only [call, pop_branching (hownTail ▸ htail)]
  | pushBatch src =>
      obtain ⟨out, hout, hsize⟩ := pushBatch_size h src
      have hend := (fits_pushBatch_iff h hsize).mp hfits
      rcases pushBatch_forms hout with ⟨-, hsame⟩ | ⟨r', hmasked, hbranch⟩
      · simp only [call, hsame, hout]
      · rw [IndexStrategy.wrap_eq_of_le hend, ← hmasked] at hbranch
        simp only [call, hbranch, hout]
  | popBatch dst =>
      obtain ⟨out, hout, hsize⟩ := popBatch_size h dst
      have hend := (fits_popBatch_iff h hsize).mp hfits
      rcases popBatch_forms hout with ⟨-, hsame⟩ | ⟨r', hmasked, hbranch⟩
      · simp only [call, hsame, hout]
      · rw [IndexStrategy.wrap_eq_of_le hend, ← hmasked] at hbranch
        simp only [call, hbranch, hout]
  | len => rfl

/-! ### Two rings side by side -/

/-- The two instantiations of one engine. -/
structure Pair (α : Type) where
  branching : Ring α
  masked : Ring α

namespace Pair

def new (slots : Nat → α) : Pair α := ⟨.new slots, .new slots⟩

/-- The same call on both rings. -/
def step (k : Nat) (aarch64 : Bool) (s : Pair α) (c : Call α) : Pair α :=
  ⟨(call (.branching k aarch64) s.branching c).1, (call (.masked k aarch64) s.masked c).1⟩

/-- The next operation is answered alike, whichever it is. -/
def Agree (k : Nat) (aarch64 : Bool) (s : Pair α) : Prop :=
  ∀ c, c ≠ .len → (call (.branching k aarch64) s.branching c).2 =
    (call (.masked k aarch64) s.masked c).2

/-- Both rings are one ring at rest. -/
def Same (k : Nat) (aarch64 : Bool) (s : Pair α) : Prop :=
  s.branching = s.masked ∧ s.masked.AtRest (.masked k aarch64)

theorem same_new (slots : Nat → α) : (new slots).Same k aarch64 :=
  ⟨rfl, Ring.atRest_new _ slots⟩

variable {s : Pair α}

theorem Same.answer (h : s.Same k aarch64) (c : Call α) :
    (call (.branching k aarch64) s.branching c).2 =
      (call (.masked k aarch64) s.masked c).2 := by
  rw [h.1]
  exact call_answer h.2 c

theorem Same.agree (h : s.Same k aarch64) : s.Agree k aarch64 :=
  fun c _ => h.answer c

theorem atRest_call (h : r.AtRest (.masked k aarch64)) (c : Call α) :
    (call (.masked k aarch64) r c).1.AtRest (.masked k aarch64) := by
  obtain ⟨q, hq⟩ := h.holds
  exact (call_simulates rfl r q c hq).2.1

theorem Same.step (h : s.Same k aarch64) {c : Call α}
    (hfits : Fits (.branching k aarch64) s.branching c) : (s.step k aarch64 c).Same k aarch64 := by
  obtain ⟨hsame, hrest⟩ := h
  refine ⟨?_, atRest_call hrest c⟩
  simp only [Pair.step]
  rw [hsame] at hfits ⊢
  rw [call_of_fits hrest hfits]

/-- The distance computed by `ringLen` leads from the tail to the head. -/
theorem add_ringLen {cap head tail n : Nat} (hhead : head < cap) (htail : tail < cap)
    (h : ringLen cap head tail = some n) : (tail + n) % cap = head := by
  simp only [ringLen, checkedSub] at h
  split at h
  · next hle =>
      cases h
      rw [Nat.add_sub_cancel' hle, Nat.mod_eq_of_lt hhead]
  · next hgt =>
      rw [if_pos (Nat.le_of_lt htail)] at h
      cases h
      rw [← Nat.add_assoc, Nat.add_sub_cancel' (Nat.le_of_lt htail), Nat.add_mod_left,
        Nat.mod_eq_of_lt hhead]

/-- Rings that agree on a `pop_batch` with room for everything have the same distance from
tail to head. -/
theorem Agree.distance (h : s.Agree k aarch64) (hrest : s.masked.AtRest (.masked k aarch64))
    (x : α) :
    ringLen (2 ^ k) s.branching.producer.head (s.branching.ownTail (.masked k aarch64)) =
      some s.masked.contents.length := by
  obtain ⟨-, -, -, -, -, hlt⟩ := atRest_indices hrest
  obtain ⟨out, hout, hsize⟩ := popBatch_size hrest (List.replicate (2 ^ k) x)
  have hanswer := h (.popBatch (List.replicate (2 ^ k) x)) (by simp)
  rw [List.length_replicate, Nat.min_eq_right (Nat.le_of_lt hlt)] at hsize
  cases hbranch : s.branching.popBatch (.branching k aarch64) (List.replicate (2 ^ k) x) with
  | none =>
      simp only [call, hout, hbranch] at hanswer
      cases hanswer
  | some out' =>
      simp only [call, hout, hbranch, Answer.filled.injEq] at hanswer
      have hcount : out'.2.2 = s.masked.contents.length := hanswer.2.trans hsize
      obtain ⟨-, -, hall | ⟨avail, havail, hmin⟩⟩ := Ring.popBatch_logs hbranch
      · rw [List.length_replicate] at hall
        omega
      · rw [List.length_replicate] at hmin
        have havail' : avail = s.masked.contents.length := by omega
        rw [← havail']
        exact havail

/-- The number of elements held leads from the tail to the head in both rings. -/
theorem Agree.meet (h : s.Agree k aarch64) (hrest : s.masked.AtRest (.masked k aarch64)) (x : α)
    (hhead : s.branching.producer.head < 2 ^ k)
    (htail : s.branching.ownTail (.masked k aarch64) < 2 ^ k) :
    ∃ n, (s.branching.ownTail (.masked k aarch64) + n) % 2 ^ k = s.branching.producer.head ∧
      (s.masked.ownTail (.masked k aarch64) + n) % 2 ^ k = s.masked.producer.head := by
  have hpositions := hrest.positions
  refine ⟨s.masked.contents.length, add_ringLen hhead htail (h.distance hrest x), ?_⟩
  rw [hpositions.ownTail, hpositions.head, cap_masked, Nat.mod_add_mod, s.masked.length_contents,
    Nat.add_sub_cancel' hpositions.popped_le]

/-- Rings that differ in the published head are told apart. -/
theorem not_agree_of_head {r' : Ring α} {head head' : Nat} (hne : head ≠ head')
    (hhead : head < 2 ^ k) (hrest : (r'.withHead aarch64 head').AtRest (.masked k aarch64))
    (x : α) : ¬ Agree k aarch64 ⟨r'.withHead aarch64 head, r'.withHead aarch64 head'⟩ := by
  intro hagree
  obtain ⟨-, hownTail, -, htail, -, -⟩ := atRest_indices hrest
  obtain ⟨n, hmeet, hmeet'⟩ := hagree.meet hrest x hhead (hownTail ▸ htail)
  exact hne (hmeet.symm.trans hmeet')

theorem ownTail_withTail (r' : Ring α) (tail : Nat) :
    (r'.withTail aarch64 tail).ownTail (.masked k aarch64) = tail := by
  cases aarch64 <;> rfl

/-- Rings that differ in the published tail are told apart. -/
theorem not_agree_of_tail {r' : Ring α} {tail tail' : Nat} (hne : tail ≠ tail')
    (htail : tail < 2 ^ k) (hrest : (r'.withTail aarch64 tail').AtRest (.masked k aarch64))
    (x : α) : ¬ Agree k aarch64 ⟨r'.withTail aarch64 tail, r'.withTail aarch64 tail'⟩ := by
  intro hagree
  obtain ⟨-, hownTail, hhead, htail', -, -⟩ := atRest_indices hrest
  obtain ⟨n, hmeet, hmeet'⟩ := hagree.meet hrest x hhead (by rw [ownTail_withTail]; exact htail)
  rw [ownTail_withTail] at hmeet hmeet'
  have hmod : tail + n ≡ tail' + n [MOD 2 ^ k] := hmeet.trans hmeet'.symm
  exact hne ((Nat.ModEq.add_right_cancel' n hmod).eq_of_lt_of_lt htail htail')

/-- **A batch past the end.** After it the rings are told apart by some operation. -/
theorem Same.not_agree (h : s.Same k aarch64) {c : Call α}
    (hfits : ¬ Fits (.branching k aarch64) s.branching c) :
    ¬ (s.step k aarch64 c).Agree k aarch64 := by
  obtain ⟨hsame, hrest⟩ := h
  have hrest' := atRest_call hrest c
  obtain ⟨hown, hownTail, hhead, htail, -, hheld⟩ := atRest_indices hrest
  rw [hsame] at hfits
  simp only [Pair.step, hsame]
  cases c with
  | push value => exact absurd trivial hfits
  | pop => exact absurd trivial hfits
  | len => exact absurd trivial hfits
  | pushBatch src =>
      obtain ⟨out, hout, hsize⟩ := pushBatch_size hrest src
      rw [fits_pushBatch_iff hrest hsize, Nat.not_le] at hfits
      obtain ⟨x, hx⟩ : ∃ x, x ∈ src := List.exists_mem_of_length_pos (by omega)
      rcases pushBatch_forms hout with ⟨hzero, -⟩ | ⟨r', hmasked, hbranch⟩
      · omega
      · simp only [call, hout, hbranch] at hrest' ⊢
        rw [hmasked] at hrest' ⊢
        exact not_agree_of_head (IndexStrategy.wrap_ne_of_lt hfits (by omega))
          (IndexStrategy.wrap_lt _ _) hrest' x
  | popBatch dst =>
      obtain ⟨out, hout, hsize⟩ := popBatch_size hrest dst
      rw [fits_popBatch_iff hrest hsize, Nat.not_le] at hfits
      obtain ⟨x, hx⟩ : ∃ x, x ∈ dst := List.exists_mem_of_length_pos (by omega)
      rcases popBatch_forms hout with ⟨hzero, -⟩ | ⟨r', hmasked, hbranch⟩
      · omega
      · simp only [call, hout, hbranch] at hrest' ⊢
        rw [hmasked] at hrest' ⊢
        exact not_agree_of_tail (IndexStrategy.wrap_ne_of_lt hfits (by omega))
          (IndexStrategy.wrap_lt _ _) hrest' x

/-- Rings that start as one answer alike as long as every call fits. -/
theorem Same.outputs_eq (h : s.Same k aarch64) {calls : List (Call α)}
    (hfits : AllSteps (Pair.step k aarch64)
      (fun s c => Fits (.branching k aarch64) s.branching c) s calls) :
    outputs (call (.branching k aarch64)) s.branching calls =
      outputs (call (.masked k aarch64)) s.masked calls := by
  induction calls generalizing s with
  | nil => rfl
  | cons c calls ih =>
      obtain ⟨hc, hrest⟩ := hfits
      simp only [outputs]
      rw [h.answer c]
      congr 1
      exact ih (h.step hc) hrest

end Pair

/-- **When the strategies are interchangeable.** From a new ring of any power-of-two
capacity, after every prefix of the calls the next operation is answered alike by both
strategies if and only if every call fits, and then all answers are the same. `RingEngine`,
which has no batches, always gives the same answers. -/
theorem interchangeable_iff (k : Nat) (aarch64 : Bool) (slots : Nat → α)
    (calls : List (Call α)) :
    (Always (Pair.step k aarch64) (Pair.Agree k aarch64) (.new slots) calls ↔
      AllSteps (Pair.step k aarch64)
        (fun s c => Fits (.branching k aarch64) s.branching c) (.new slots) calls) ∧
    (AllSteps (Pair.step k aarch64)
        (fun s c => Fits (.branching k aarch64) s.branching c) (.new slots) calls →
      outputs (call (.branching k aarch64)) (.new slots) calls =
        outputs (call (.masked k aarch64)) (.new slots) calls) ∧
    ∀ single : List (RingEngine.Call α),
      outputs (RingEngine.call (.branching k aarch64)) (.new slots) single =
        outputs (RingEngine.call (.masked k aarch64)) (.new slots) single := by
  have hsame : (Pair.new slots).Same k aarch64 := Pair.same_new slots
  refine ⟨?_, hsame.outputs_eq, ?_⟩
  · exact always_iff_allSteps_of_break (fun _ _ h hfits => h.step hfits) (fun _ h => h.agree)
      (fun _ _ h hfits => h.not_agree hfits) hsame calls
  · intro single
    have hfifo : ∀ cfg : RingConfig, outputs (RingEngine.call cfg) (.new slots) single =
        outputs RingEngine.fifoCall (.empty : Fifo α (cfg.cap - 1)) single :=
      fun cfg => (RingEngine.call_simulates cfg).outputs_eq (Ring.holds_new cfg slots) single
    rw [hfifo, hfifo]
    rfl

/-- Batches that end at the last slot, and single elements across it. -/
theorem interchangeable_iff_fits :
    outputs (call (.branching 2 true)) (.new fun _ => 0)
        [.pushBatch [1, 2, 3], .popBatch [0, 0, 0], .pushBatch [4], .push 5, .popBatch [0], .pop] =
      outputs (call (.masked 2 true)) (.new fun _ => 0)
        [.pushBatch [1, 2, 3], .popBatch [0, 0, 0], .pushBatch [4], .push 5, .popBatch [0], .pop] :=
  (interchangeable_iff 2 true (fun _ => 0) _).2.1 (by decide)

/-- **A batch across the end of four slots.** Head and tail stand at slot 3 when three
elements are pushed. The branch publishes head 0 instead of head 2, and the next
`pop_batch` returns one element instead of three. -/
theorem batch_past_end_differs :
    outputs (call (.branching 2 false)) (.new fun _ => 0)
        [.pushBatch [1, 2, 3], .popBatch [0, 0, 0], .pushBatch [4, 5, 6], .popBatch [0, 0, 0]] =
      [.accepted 3, .filled [1, 2, 3] 3, .accepted 3, .filled [4, 0, 0] 1] ∧
    outputs (call (.masked 2 false)) (.new fun _ => 0)
        [.pushBatch [1, 2, 3], .popBatch [0, 0, 0], .pushBatch [4, 5, 6], .popBatch [0, 0, 0]] =
      [.accepted 3, .filled [1, 2, 3] 3, .accepted 3, .filled [4, 5, 6] 3] ∧
    outputs (call (.branching 2 false)) (.new fun _ => 0)
        [.pushBatch [1, 2, 3], .popBatch [0, 0, 0], .pushBatch [4, 5, 6], .popBatch [0, 0, 0]] ≠
      outputs (call (.masked 2 false)) (.new fun _ => 0)
        [.pushBatch [1, 2, 3], .popBatch [0, 0, 0], .pushBatch [4, 5, 6], .popBatch [0, 0, 0]] := by
  decide

end CopyRingEngine

end Mantis
