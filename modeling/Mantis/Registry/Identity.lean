import Mantis.Lib.Runs
import Mantis.Registry.Registry

/-!
# Mantis.Registry.Identity

The identity side of the registry: which ids are handed out, and how the key and
symbol maps relate to the records.

`Outcome` says once what a call can do: register one or two records, replace the
windows of a record, fail without a trace, or fail and leave one. Consistency of the
maps, freshness of the ids and atomicity on error are all read off it.
-/

namespace Mantis.InstrumentRegistry

open Runs

variable {D : Nat}

/-! ### What a call can do -/

/-- A rotation works on the record of an id that has a Polymarket binding. -/
theorem polymarketMut_eq_ok {reg : InstrumentRegistry D} {id : InstrumentId}
    {record : InstrumentRecord D} {pm : PolymarketBinding} :
    reg.polymarketMut id = .ok (record, pm) ↔
      reg.get id = some record ∧ record.polymarket = some pm := by
  simp only [polymarketMut, get]
  split
  · next hnone => simp [hnone]
  · next r hr =>
      rw [hr]
      split
      · next hpm => grind
      · next pm' hpm => grind

/-- The registry with a new record under the next id. -/
def registered (reg : InstrumentRegistry D) (key : InstrumentKey) (metadata : InstrumentMeta D)
    (binance : Option BinanceBinding) (polymarket : Option PolymarketBinding) :
    InstrumentRegistry D :=
  { reg with
    byId := reg.byId.insert reg.nextId ⟨⟨reg.nextId, key, metadata⟩, binance, polymarket⟩
    byKey := reg.byKey.insert key reg.nextId
    byBinanceSymbol := indexBinance reg.byBinanceSymbol binance reg.nextId
    nextId := reg.nextId + 1 }

/-- The registry after an id was allocated and not used. -/
def burned (reg : InstrumentRegistry D) : InstrumentRegistry D :=
  { reg with nextId := reg.nextId + 1 }

/-- The key is new, an id is left, and the symbol is not taken. -/
structure Insertable (reg : InstrumentRegistry D) (key : InstrumentKey)
    (binance : Option BinanceBinding) : Prop where
  key_new : key ∉ reg.byKey
  id_left : reg.nextId ≠ 0
  symbol_new : ∀ bn, binance = some bn → bn.symbol ∉ reg.byBinanceSymbol

/-- The key is new and an id is left, but the symbol is taken: the id is allocated
before the symbol is looked at. -/
def BurnsId (reg : InstrumentRegistry D) (key : InstrumentKey)
    (binance : Option BinanceBinding) : Prop :=
  key ∉ reg.byKey ∧ reg.nextId ≠ 0 ∧ ∃ bn, binance = some bn ∧ bn.symbol ∈ reg.byBinanceSymbol

/-- An insertion registers a record, or burns an id, or does nothing: the key is looked at
first, then an id is allocated, and only then the symbol is looked at. -/
theorem insert_outcome (reg : InstrumentRegistry D) (key : InstrumentKey)
    (metadata : InstrumentMeta D) (binance : Option BinanceBinding)
    (polymarket : Option PolymarketBinding) :
    (reg.Insertable key binance ∧
      reg.insert key metadata binance polymarket =
        (reg.registered key metadata binance polymarket, .ok reg.nextId)) ∨
    (reg.BurnsId key binance ∧
      ∃ e, reg.insert key metadata binance polymarket = (reg.burned, .error e)) ∨
    (¬ reg.Insertable key binance ∧ ¬ reg.BurnsId key binance ∧
      ∃ e, reg.insert key metadata binance polymarket = (reg, .error e)) := by
  simp only [insert, allocId]
  by_cases hkey : key ∈ reg.byKey
  · -- the key is taken: nothing has been allocated yet
    rw [if_pos hkey]
    exact Or.inr (Or.inr ⟨fun h => h.key_new hkey, fun h => h.1 hkey, _, rfl⟩)
  · rw [if_neg hkey]
    by_cases hid : reg.nextId = 0
    · rw [if_pos hid]
      exact Or.inr (Or.inr ⟨fun h => h.id_left hid, fun h => h.2.1 hid, _, rfl⟩)
    · rw [if_neg hid]
      dsimp only
      split
      · -- the symbol is taken, and the id is gone
        next bn hbn =>
          obtain ⟨hsome, hmem⟩ := Option.filter_eq_some_iff.mp hbn
          exact Or.inr (Or.inl ⟨⟨hkey, hid, bn, hsome, of_decide_eq_true hmem⟩, _, rfl⟩)
      · next hnone =>
          refine Or.inl ⟨⟨hkey, hid, ?_⟩, rfl⟩
          intro bn hbn hmem
          exact Option.filter_eq_none_iff.mp hnone bn hbn (decide_eq_true hmem)

theorem insert_eq_registered {reg : InstrumentRegistry D} {key : InstrumentKey}
    {binance : Option BinanceBinding} (hnew : reg.Insertable key binance)
    (metadata : InstrumentMeta D) (polymarket : Option PolymarketBinding) :
    reg.insert key metadata binance polymarket =
      (reg.registered key metadata binance polymarket, .ok reg.nextId) := by
  rcases insert_outcome reg key metadata binance polymarket with
    ⟨-, heq⟩ | ⟨⟨-, -, bn, hbn, hmem⟩, -⟩ | ⟨hno, -⟩
  · exact heq
  · exact absurd hmem (hnew.symbol_new bn hbn)
  · exact absurd hnew hno

/-- With a new key and no id left, nothing is touched. -/
theorem insert_eq_exhausted {reg : InstrumentRegistry D} {key : InstrumentKey}
    (hkey : key ∉ reg.byKey) (hid : reg.nextId = 0) (metadata : InstrumentMeta D)
    (binance : Option BinanceBinding) (polymarket : Option PolymarketBinding) :
    reg.insert key metadata binance polymarket = (reg, .error .idSpaceExhausted) := by
  simp only [insert, allocId]
  rw [if_neg hkey, if_pos hid]

/-- The two keys and the symbol of a pair are new. -/
structure PairNew (reg : InstrumentRegistry D) (base : Asset) (timeframe : Timeframe)
    (binanceSymbol : Option String) : Prop where
  up_new : InstrumentKey.prediction base timeframe .up ∉ reg.byKey
  down_new : InstrumentKey.prediction base timeframe .down ∉ reg.byKey
  symbol_new : ∀ sym, binanceSymbol = some sym → sym ∉ reg.byBinanceSymbol

/-- The pair is new and the counter stands at its last id: Up takes it, and none is left
for Down. -/
def HalfInserts (reg : InstrumentRegistry D) (base : Asset) (timeframe : Timeframe)
    (binanceSymbol : Option String) : Prop :=
  reg.PairNew base timeframe binanceSymbol ∧ reg.nextId + 1 = 0

/-- The last id is not zero: Up is registered before the ids run out. -/
theorem HalfInserts.id_left {reg : InstrumentRegistry D} {base : Asset} {timeframe : Timeframe}
    {sym : Option String} (h : reg.HalfInserts base timeframe sym) : reg.nextId ≠ 0 := by
  intro h0
  have hlast := h.2
  rw [h0] at hlast
  exact absurd hlast (by decide)

/-- The registry after the Up half of a pair. -/
def registeredUp (reg : InstrumentRegistry D) (base : Asset) (timeframe : Timeframe)
    (metadata : InstrumentMeta D) (binanceSymbol : Option String) : InstrumentRegistry D :=
  reg.registered (.prediction base timeframe .up) metadata
    (binanceSymbol.map BinanceBinding.mk) (some .default)

/-- The first half of a new pair is a plain insertion. -/
theorem PairNew.insertable_up {reg : InstrumentRegistry D} {base : Asset} {timeframe : Timeframe}
    {binanceSymbol : Option String} (h : reg.PairNew base timeframe binanceSymbol)
    (hid : reg.nextId ≠ 0) :
    reg.Insertable (.prediction base timeframe .up) (binanceSymbol.map BinanceBinding.mk) := by
  refine ⟨h.up_new, hid, ?_⟩
  intro bn hbn
  obtain ⟨sym, hsym, rfl⟩ := Option.map_eq_some_iff.mp hbn
  exact h.symbol_new sym hsym

/-- Registering Up does not take the key of Down. -/
theorem PairNew.down_new_after_up {reg : InstrumentRegistry D} {base : Asset}
    {timeframe : Timeframe} {binanceSymbol : Option String}
    (h : reg.PairNew base timeframe binanceSymbol) (metadata : InstrumentMeta D) :
    InstrumentKey.prediction base timeframe .down ∉
      (reg.registeredUp base timeframe metadata binanceSymbol).byKey := by
  show InstrumentKey.prediction base timeframe .down ∉ AList.insert _ _ reg.byKey
  rw [AList.mem_insert]
  rintro (heq | hmem)
  · simp [InstrumentKey.prediction] at heq
  · exact h.down_new hmem

/-- So is the second, which has no symbol to clash with. -/
theorem PairNew.insertable_down {reg : InstrumentRegistry D} {base : Asset}
    {timeframe : Timeframe} {binanceSymbol : Option String}
    (h : reg.PairNew base timeframe binanceSymbol) (metadata : InstrumentMeta D)
    (hid : reg.nextId + 1 ≠ 0) :
    (reg.registeredUp base timeframe metadata binanceSymbol).Insertable
      (.prediction base timeframe .down) none := by
  refine ⟨h.down_new_after_up metadata, hid, ?_⟩
  intro bn hbn
  cases hbn

/-- A pair registers both halves, or Up alone at the last id, or does nothing. Keys and symbol
are looked at before either half, so nothing else can fail in between. -/
theorem insertPredictionPair_outcome (reg : InstrumentRegistry D) (base : Asset)
    (timeframe : Timeframe) (metadata : InstrumentMeta D) (binanceSymbol : Option String) :
    (reg.PairNew base timeframe binanceSymbol ∧ reg.nextId ≠ 0 ∧ reg.nextId + 1 ≠ 0 ∧
      reg.insertPredictionPair base timeframe metadata binanceSymbol =
        ((reg.registeredUp base timeframe metadata binanceSymbol).registered
            (.prediction base timeframe .down) metadata none (some .default),
          .ok (reg.nextId, reg.nextId + 1))) ∨
    (reg.HalfInserts base timeframe binanceSymbol ∧
      ∃ e, reg.insertPredictionPair base timeframe metadata binanceSymbol =
        (reg.registeredUp base timeframe metadata binanceSymbol, .error e)) ∨
    (¬ reg.HalfInserts base timeframe binanceSymbol ∧
      ∃ e, reg.insertPredictionPair base timeframe metadata binanceSymbol = (reg, .error e)) := by
  simp only [insertPredictionPair]
  by_cases hkeys : InstrumentKey.prediction base timeframe .up ∈ reg.byKey ∨
      InstrumentKey.prediction base timeframe .down ∈ reg.byKey
  · rw [if_pos hkeys]
    refine Or.inr (Or.inr ⟨?_, _, rfl⟩)
    rintro ⟨hnew, -⟩
    exact hkeys.elim hnew.up_new hnew.down_new
  · rw [if_neg hkeys]
    rw [not_or] at hkeys
    split
    · next sym hsym =>
        obtain ⟨hsome, hmem⟩ := Option.filter_eq_some_iff.mp hsym
        refine Or.inr (Or.inr ⟨?_, _, rfl⟩)
        rintro ⟨hnew, -⟩
        exact hnew.symbol_new sym hsome (of_decide_eq_true hmem)
    · next hnone =>
        have hnew : reg.PairNew base timeframe binanceSymbol := by
          refine ⟨hkeys.1, hkeys.2, ?_⟩
          intro sym hsym hmem
          exact Option.filter_eq_none_iff.mp hnone sym hsym (decide_eq_true hmem)
        by_cases hid : reg.nextId = 0
        · -- nothing is left for Up either
          rw [insert_eq_exhausted hnew.up_new hid]
          refine Or.inr (Or.inr ⟨?_, _, rfl⟩)
          intro hhalf
          exact hhalf.id_left hid
        · rw [insert_eq_registered (hnew.insertable_up hid)]
          dsimp only
          by_cases hlast : reg.nextId + 1 = 0
          · -- Up has taken the last id
            rw [← registeredUp, insert_eq_exhausted (hnew.down_new_after_up metadata) hlast]
            exact Or.inr (Or.inl ⟨⟨hnew, hlast⟩, _, rfl⟩)
          · rw [← registeredUp, insert_eq_registered (hnew.insertable_down metadata hlast)]
            exact Or.inl ⟨hnew, hid, hlast, rfl⟩

/-- The calls that move Polymarket windows. -/
def Call.isRotation : Call D → Bool
  | .insert .. | .insertPredictionPair .. => false
  | .bindPolymarketCurrent .. | .bindPolymarketNext .. | .promotePolymarketNext _
  | .unbindPolymarket _ => true

/-- The calls that fail after they changed something. -/
def LeavesTrace (reg : InstrumentRegistry D) : Call D → Prop
  | .insert key _ binance _ => reg.BurnsId key binance
  | .insertPredictionPair base timeframe _ sym => reg.HalfInserts base timeframe sym
  | .bindPolymarketCurrent .. | .bindPolymarketNext .. | .promotePolymarketNext _
  | .unbindPolymarket _ => False

/-- Rotations check all they need before they write. -/
theorem not_leavesTrace_of_rotation (reg : InstrumentRegistry D) {c : Call D}
    (hc : c.isRotation = true) : ¬ reg.LeavesTrace c := by
  cases c with
  | insert key metadata binance polymarket => cases hc
  | insertPredictionPair base timeframe metadata sym => cases hc
  | bindPolymarketCurrent id binding => exact not_false
  | bindPolymarketNext id binding => exact not_false
  | promotePolymarketNext id => exact not_false
  | unbindPolymarket id => exact not_false

/-- What a call can do, with the registry it leaves and its answer. -/
inductive Outcome (reg : InstrumentRegistry D) :
    Call D → InstrumentRegistry D → Except RegistryError (List InstrumentId) → Prop
  | registered {key metadata binance polymarket} (hnew : reg.Insertable key binance) :
      Outcome reg (.insert key metadata binance polymarket)
        (reg.registered key metadata binance polymarket) (.ok [reg.nextId])
  | burned {key metadata binance polymarket} (hburns : reg.BurnsId key binance) (e) :
      Outcome reg (.insert key metadata binance polymarket) reg.burned (.error e)
  | pair {base timeframe metadata sym} (hnew : reg.PairNew base timeframe sym)
      (hup : reg.nextId ≠ 0) (hdown : reg.nextId + 1 ≠ 0) :
      Outcome reg (.insertPredictionPair base timeframe metadata sym)
        ((reg.registeredUp base timeframe metadata sym).registered
          (.prediction base timeframe .down) metadata none (some .default))
        (.ok [reg.nextId, reg.nextId + 1])
  | half {base timeframe metadata sym} (hhalf : reg.HalfInserts base timeframe sym) (e) :
      Outcome reg (.insertPredictionPair base timeframe metadata sym)
        (reg.registeredUp base timeframe metadata sym) (.error e)
  | rotated {c id record} (hc : c.isRotation = true) (hget : reg.get id = some record) (pm index) :
      Outcome reg c (reg.setWindows id record pm index) (.ok [])
  | failed {c} (hno : ¬ reg.LeavesTrace c) (e) : Outcome reg c reg (.error e)

/-- **What a call does.** The six calls of the source, each one of the cases of `Outcome`; no
proof below looks at a call again. -/
theorem outcome (reg : InstrumentRegistry D) (c : Call D) :
    Outcome reg c (reg.step c) (reg.answer c) := by
  cases c with
  | insert key metadata binance polymarket =>
      simp only [step, answer]
      rcases insert_outcome reg key metadata binance polymarket with
        ⟨hnew, heq⟩ | ⟨hburns, e, heq⟩ | ⟨-, hno, e, heq⟩
      · rw [heq]
        exact .registered hnew
      · rw [heq]
        exact .burned hburns e
      · rw [heq]
        refine .failed ?_ e
        exact hno
  | insertPredictionPair base timeframe metadata sym =>
      simp only [step, answer]
      rcases insertPredictionPair_outcome reg base timeframe metadata sym with
        ⟨hnew, hup, hdown, heq⟩ | ⟨hhalf, e, heq⟩ | ⟨hno, e, heq⟩
      · rw [heq]
        exact .pair hnew hup hdown
      · rw [heq]
        exact .half hhalf e
      · rw [heq]
        refine .failed ?_ e
        exact hno
  | bindPolymarketCurrent id binding =>
      simp only [step, answer, bindPolymarketCurrent]
      cases hmut : reg.polymarketMut id with
      | error e => exact .failed (reg.not_leavesTrace_of_rotation rfl) e
      | ok p => exact .rotated rfl (polymarketMut_eq_ok.mp hmut).1 _ _
  | bindPolymarketNext id binding =>
      simp only [step, answer, bindPolymarketNext]
      cases hmut : reg.polymarketMut id with
      | error e => exact .failed (reg.not_leavesTrace_of_rotation rfl) e
      | ok p => exact .rotated rfl (polymarketMut_eq_ok.mp hmut).1 _ _
  | promotePolymarketNext id =>
      simp only [step, answer, promotePolymarketNext]
      cases hmut : reg.polymarketMut id with
      | error e => exact .failed (reg.not_leavesTrace_of_rotation rfl) e
      | ok p =>
          dsimp only
          cases p.2.next with
          | none => exact .failed (reg.not_leavesTrace_of_rotation rfl) _
          | some next => exact .rotated rfl (polymarketMut_eq_ok.mp hmut).1 _ _
  | unbindPolymarket id =>
      simp only [step, answer, unbindPolymarket]
      cases hmut : reg.polymarketMut id with
      | error e => exact .failed (reg.not_leavesTrace_of_rotation rfl) e
      | ok p => exact .rotated rfl (polymarketMut_eq_ok.mp hmut).1 _ _

/-! ### Lookups after a registration -/

/-- A map with one more entry, as a case distinction on the key. -/
theorem lookup_insert_ite {K V : Type} [DecidableEq K] (m : AList fun _ : K => V) (k a : K)
    (v : V) : (m.insert k v).lookup a = if a = k then some v else m.lookup a := by
  split
  · next h =>
      subst h
      exact AList.lookup_insert m
  · next h => exact AList.lookup_insert_ne h

/-- A registration adds one record under the next id. -/
theorem get_registered (reg : InstrumentRegistry D) (key : InstrumentKey)
    (metadata : InstrumentMeta D) (binance : Option BinanceBinding)
    (polymarket : Option PolymarketBinding) (i : InstrumentId) :
    (reg.registered key metadata binance polymarket).get i =
      if i = reg.nextId then some ⟨⟨reg.nextId, key, metadata⟩, binance, polymarket⟩
      else reg.get i :=
  lookup_insert_ite reg.byId reg.nextId i _

theorem findByKey_registered (reg : InstrumentRegistry D) (key : InstrumentKey)
    (metadata : InstrumentMeta D) (binance : Option BinanceBinding)
    (polymarket : Option PolymarketBinding) (k : InstrumentKey) :
    (reg.registered key metadata binance polymarket).findByKey k =
      if key = k then some reg.nextId else reg.findByKey k := by
  refine (lookup_insert_ite reg.byKey key k reg.nextId).trans ?_
  simp only [eq_comm]
  rfl

/-- The symbol is indexed if the record has one. -/
theorem findByBinanceSymbol_registered (reg : InstrumentRegistry D) (key : InstrumentKey)
    (metadata : InstrumentMeta D) (binance : Option BinanceBinding)
    (polymarket : Option PolymarketBinding) (s : String) :
    (reg.registered key metadata binance polymarket).findByBinanceSymbol s =
      if binance = some ⟨s⟩ then some reg.nextId else reg.findByBinanceSymbol s := by
  cases binance with
  | none => rfl
  | some bn =>
      obtain ⟨symbol⟩ := bn
      refine (lookup_insert_ite reg.byBinanceSymbol symbol s reg.nextId).trans ?_
      simp only [Option.some.injEq, BinanceBinding.mk.injEq, eq_comm]
      rfl

/-- A rotation replaces one record by itself with other windows. -/
theorem get_setWindows (reg : InstrumentRegistry D) (id : InstrumentId)
    (record : InstrumentRecord D) (pm : PolymarketBinding)
    (index : AList fun _ : String => InstrumentId) (i : InstrumentId) :
    (reg.setWindows id record pm index).get i =
      if i = id then some { record with polymarket := some pm } else reg.get i :=
  lookup_insert_ite reg.byId id i _

/-! ### Fresh ids -/

/-- Every registered id is below the next one to be handed out. -/
def IdsFresh (reg : InstrumentRegistry D) : Prop :=
  ∀ i record, reg.get i = some record → reg.nextId ≠ 0 → i < reg.nextId

/-- The id counter moves forward until it wraps to zero. -/
theorem lt_add_one {n : UInt32} (hn : n + 1 ≠ 0) : n < n + 1 := by
  have hne : (n + 1).toNat ≠ 0 := fun h0 => hn (UInt32.toNat_inj.mp h0)
  rw [UInt32.lt_iff_toNat_lt]
  rw [UInt32.toNat_add, UInt32.toNat_one] at hne ⊢
  have hbound := n.toNat_lt
  omega

/-- The new record takes the next id, and the counter moves past it. -/
theorem IdsFresh.registered {reg : InstrumentRegistry D} (hfresh : reg.IdsFresh)
    {key : InstrumentKey} {binance : Option BinanceBinding} (hid : reg.nextId ≠ 0)
    (metadata : InstrumentMeta D) (polymarket : Option PolymarketBinding) :
    (reg.registered key metadata binance polymarket).IdsFresh := by
  intro i record hget hne
  rw [get_registered] at hget
  split at hget
  · next hi =>
      rw [hi]
      exact lt_add_one hne
  · exact UInt32.lt_trans (hfresh i record hget hid) (lt_add_one hne)

/-- A burned id leaves a gap and nothing else. -/
theorem IdsFresh.burned {reg : InstrumentRegistry D} (hfresh : reg.IdsFresh)
    (hid : reg.nextId ≠ 0) : reg.burned.IdsFresh := by
  intro i record hget hne
  exact UInt32.lt_trans (hfresh i record hget hid) (lt_add_one hne)

/-! ### Consistency of the maps -/

/-- The key and symbol maps list exactly the records, and every record knows its id. -/
structure Consistent (reg : InstrumentRegistry D) : Prop where
  id_ne_zero : ∀ i record, reg.get i = some record → i ≠ 0
  own_id : ∀ i record, reg.get i = some record → record.canonical.instrumentId = i
  key_iff : ∀ key i, reg.findByKey key = some i ↔
    ∃ record, reg.get i = some record ∧ record.canonical.key = key
  symbol_iff : ∀ symbol i, reg.findByBinanceSymbol symbol = some i ↔
    ∃ record, reg.get i = some record ∧ record.binance = some ⟨symbol⟩

/-- What is left of a record when its windows are forgotten. -/
def identity (reg : InstrumentRegistry D) (i : InstrumentId) :
    Option (CanonicalInstrument D × Option BinanceBinding) :=
  (reg.get i).map fun record => (record.canonical, record.binance)

/-- Both registries agree on every id, key, metadata and Binance lookup, and on the next
id to be assigned. -/
structure SameIdentity (reg reg' : InstrumentRegistry D) : Prop where
  records : ∀ i, reg'.identity i = reg.identity i
  key : ∀ key, reg'.findByKey key = reg.findByKey key
  symbol : ∀ symbol, reg'.findByBinanceSymbol symbol = reg.findByBinanceSymbol symbol
  nextId : reg'.nextId = reg.nextId

theorem SameIdentity.refl (reg : InstrumentRegistry D) : SameIdentity reg reg :=
  ⟨fun _ => rfl, fun _ => rfl, fun _ => rfl, rfl⟩

/-- Windows are no part of an identity. -/
theorem sameIdentity_setWindows {reg : InstrumentRegistry D} {id : InstrumentId}
    {record : InstrumentRecord D} (hget : reg.get id = some record) (pm : PolymarketBinding)
    (index : AList fun _ : String => InstrumentId) :
    SameIdentity reg (reg.setWindows id record pm index) := by
  refine ⟨?_, fun _ => rfl, fun _ => rfl, rfl⟩
  intro i
  simp only [identity, get_setWindows]
  split
  · next hi =>
      subst hi
      rw [hget]
      rfl
  · rfl

/-- Whatever a rotation answers, it keeps every identity. -/
theorem rotation_sameIdentity (reg : InstrumentRegistry D) (c : Call D)
    (hc : c.isRotation = true) : SameIdentity reg (reg.step c) := by
  have hout := outcome reg c
  generalize reg.step c = reg', reg.answer c = ans at hout ⊢
  cases hout with
  | registered hnew => cases hc
  | burned hburns e => cases hc
  | pair hnew hup hdown => cases hc
  | half hhalf e => cases hc
  | rotated hc hget pm index => exact sameIdentity_setWindows hget pm index
  | failed hno e => exact .refl reg

/-- A property of canonical part and Binance binding is a property of the identity. -/
theorem get_eq_some_iff_identity {reg : InstrumentRegistry D} {i : InstrumentId}
    {P : CanonicalInstrument D → Option BinanceBinding → Prop} :
    (∃ record, reg.get i = some record ∧ P record.canonical record.binance) ↔
      ∃ x, reg.identity i = some x ∧ P x.1 x.2 := by
  simp [identity]

/-- Consistency, freshness and the counter depend on identities only. -/
theorem SameIdentity.consistent {reg reg' : InstrumentRegistry D} (h : SameIdentity reg reg')
    (hreg : reg.Consistent) : reg'.Consistent := by
  have hrecord : ∀ i record', reg'.get i = some record' → ∃ record, reg.get i = some record ∧
      record.canonical = record'.canonical ∧ record.binance = record'.binance := by
    intro i record' hget
    have hid := h.records i
    simp only [identity] at hid
    rw [hget, Option.map_some, eq_comm, Option.map_eq_some_iff] at hid
    obtain ⟨record, hrec, heq⟩ := hid
    exact ⟨record, hrec, congrArg Prod.fst heq, congrArg Prod.snd heq⟩
  refine ⟨?_, ?_, ?_, ?_⟩
  · intro i record' hget
    obtain ⟨record, hrec, -⟩ := hrecord i record' hget
    exact hreg.id_ne_zero i record hrec
  · intro i record' hget
    obtain ⟨record, hrec, hcanonical, -⟩ := hrecord i record' hget
    rw [← hcanonical]
    exact hreg.own_id i record hrec
  · intro key i
    rw [h.key, hreg.key_iff, get_eq_some_iff_identity (P := fun c _ => c.key = key),
      get_eq_some_iff_identity (P := fun c _ => c.key = key), h.records]
  · intro symbol i
    rw [h.symbol, hreg.symbol_iff, get_eq_some_iff_identity (P := fun _ b => b = some ⟨symbol⟩),
      get_eq_some_iff_identity (P := fun _ b => b = some ⟨symbol⟩), h.records]

/-- One map against the records: the entry of an attribute `A` that no record had before
points to the new record. -/
theorem index_registered {α : Type} {G : InstrumentId → Option α} {L : Option InstrumentId}
    {n i : InstrumentId} (A : α → Prop) [DecidablePred A] (r : α)
    (hunused : ∀ record, G n ≠ some record) (hnew : A r → ∀ i, L ≠ some i)
    (hold : ∀ i, L = some i ↔ ∃ record, G i = some record ∧ A record) :
    (if A r then some n else L) = some i ↔
      ∃ record, (if i = n then some r else G i) = some record ∧ A record := by
  by_cases hi : i = n
  · -- at the new id there was no record, so only the new one counts
    subst hi
    rw [if_pos rfl]
    by_cases hA : A r
    · rw [if_pos hA]
      exact iff_of_true rfl ⟨r, rfl, hA⟩
    · rw [if_neg hA, hold]
      refine iff_of_false ?_ ?_
      · rintro ⟨record, hget, -⟩
        exact hunused record hget
      · rintro ⟨record, hget, hrecord⟩
        cases hget
        exact hA hrecord
  · -- at any other id the records are as before, and so is the entry: no record had
    -- the attribute of the new one
    rw [if_neg hi, ← hold i]
    by_cases hA : A r
    · rw [if_pos hA]
      refine iff_of_false ?_ (hnew hA i)
      intro heq
      exact hi (Option.some.inj heq).symm
    · rw [if_neg hA]

/-- A new record under a fresh id keeps the maps consistent. -/
theorem Consistent.registered {reg : InstrumentRegistry D} (hreg : reg.Consistent)
    (hfresh : reg.IdsFresh) {key : InstrumentKey} {binance : Option BinanceBinding}
    (hnew : reg.Insertable key binance) (metadata : InstrumentMeta D)
    (polymarket : Option PolymarketBinding) :
    (reg.registered key metadata binance polymarket).Consistent := by
  have hunused : ∀ record, reg.get reg.nextId ≠ some record := fun record hget =>
    absurd (hfresh reg.nextId record hget hnew.id_left) (UInt32.lt_irrefl _)
  have hkey : ∀ i, reg.findByKey key ≠ some i := by
    intro i hi
    exact hnew.key_new (AList.lookup_isSome.mp (Option.isSome_of_eq_some hi))
  have hsymbol : ∀ symbol, binance = some ⟨symbol⟩ →
      ∀ i, reg.findByBinanceSymbol symbol ≠ some i := by
    intro symbol hbn i hi
    exact hnew.symbol_new _ hbn (AList.lookup_isSome.mp (Option.isSome_of_eq_some hi))
  refine ⟨?_, ?_, ?_, ?_⟩
  · intro i record hget
    rw [get_registered] at hget
    split at hget
    · next hi =>
        rw [hi]
        exact hnew.id_left
    · exact hreg.id_ne_zero i record hget
  · intro i record hget
    rw [get_registered] at hget
    split at hget
    · next hi =>
        cases hget
        exact hi.symm
    · exact hreg.own_id i record hget
  · intro k i
    rw [get_registered, findByKey_registered]
    refine index_registered (fun record => record.canonical.key = k)
      ⟨⟨reg.nextId, key, metadata⟩, binance, polymarket⟩ hunused ?_ (hreg.key_iff k)
    rintro rfl
    exact hkey
  · intro symbol i
    rw [get_registered, findByBinanceSymbol_registered]
    exact index_registered (fun record => record.binance = some ⟨symbol⟩)
      ⟨⟨reg.nextId, key, metadata⟩, binance, polymarket⟩ hunused (hsymbol symbol)
      (hreg.symbol_iff symbol)

/-- The invariant of the runs. -/
structure Sound (reg : InstrumentRegistry D) : Prop where
  consistent : reg.Consistent
  fresh : reg.IdsFresh

theorem Sound.registered {reg : InstrumentRegistry D} (hreg : reg.Sound) {key : InstrumentKey}
    {binance : Option BinanceBinding} (hnew : reg.Insertable key binance)
    (metadata : InstrumentMeta D) (polymarket : Option PolymarketBinding) :
    (reg.registered key metadata binance polymarket).Sound :=
  ⟨hreg.consistent.registered hreg.fresh hnew metadata polymarket,
    hreg.fresh.registered hnew.id_left metadata polymarket⟩

theorem Sound.burned {reg : InstrumentRegistry D} (hreg : reg.Sound) (hid : reg.nextId ≠ 0) :
    reg.burned.Sound :=
  ⟨⟨hreg.consistent.id_ne_zero, hreg.consistent.own_id, hreg.consistent.key_iff,
    hreg.consistent.symbol_iff⟩, hreg.fresh.burned hid⟩

/-- A registry with the same identities is as sound as the other. -/
theorem SameIdentity.sound {reg reg' : InstrumentRegistry D} (h : SameIdentity reg reg')
    (hreg : reg.Sound) : reg'.Sound := by
  refine ⟨h.consistent hreg.consistent, ?_⟩
  -- a record here is one there, with the same counter above it
  intro i record' hget hne
  obtain ⟨record, hrec⟩ : ∃ record, reg.get i = some record := by
    have hsome : (reg'.identity i).isSome := by
      simp [InstrumentRegistry.identity, hget]
    rw [h.records] at hsome
    simpa [InstrumentRegistry.identity, Option.isSome_iff_exists] using hsome
  rw [h.nextId] at hne ⊢
  exact hreg.fresh i record hrec hne

/-- **Step lemma.** Soundness through each outcome; a pair is two registrations. -/
theorem step_sound {reg : InstrumentRegistry D} (hreg : reg.Sound) (c : Call D) :
    (reg.step c).Sound := by
  have hout := outcome reg c
  generalize reg.step c = reg', reg.answer c = ans at hout ⊢
  cases hout with
  | registered hnew => exact hreg.registered hnew _ _
  | burned hburns e => exact hreg.burned hburns.2.1
  | @pair base timeframe metadata sym hnew hup hdown =>
      have hfirst := hreg.registered (hnew.insertable_up hup) metadata (some .default)
      exact hfirst.registered (hnew.insertable_down metadata hdown) metadata _
  | half hhalf e => exact hreg.registered (hhalf.1.insertable_up hhalf.id_left) _ _
  | rotated hc hget pm index => exact (sameIdentity_setWindows hget pm index).sound hreg
  | failed hno e => exact hreg

theorem get_new (i : InstrumentId) : (new : InstrumentRegistry D).get i = none :=
  AList.lookup_empty i

theorem sound_new : (new : InstrumentRegistry D).Sound := by
  have hkey : ∀ key, (new : InstrumentRegistry D).findByKey key = none := AList.lookup_empty
  have hsymbol : ∀ symbol, (new : InstrumentRegistry D).findByBinanceSymbol symbol = none :=
    AList.lookup_empty
  refine ⟨⟨?_, ?_, ?_, ?_⟩, ?_⟩ <;> simp [IdsFresh, get_new, hkey, hsymbol]

/-! ### The ids handed out -/

/-- The ids a call returns; a failing call returns none. -/
def returnedIds (reg : InstrumentRegistry D) (c : Call D) : List InstrumentId :=
  match reg.answer c with
  | .ok ids => ids
  | .error _ => []

/-- The ids a run hands out, in order. -/
def handedOut : InstrumentRegistry D → List (Call D) → List InstrumentId
  | _, [] => []
  | reg, c :: calls => reg.returnedIds c ++ handedOut (reg.step c) calls

/-- How a call moves the counter: forward until it wraps to zero, past every id it
returns. -/
structure CounterStep (reg reg' : InstrumentRegistry D) (ids : List InstrumentId) : Prop where
  forward : reg'.nextId ≠ 0 → reg.nextId ≠ 0 ∧ reg.nextId ≤ reg'.nextId
  increasing : ids.Pairwise (· < ·)
  lower : ∀ id ∈ ids, reg.nextId ≠ 0 ∧ reg.nextId ≤ id
  upper : ∀ id ∈ ids, reg'.nextId ≠ 0 → id < reg'.nextId

theorem CounterStep.of_eq {reg reg' : InstrumentRegistry D} (h : reg'.nextId = reg.nextId) :
    CounterStep reg reg' [] := by
  refine ⟨?_, .nil, fun id hid => absurd hid List.not_mem_nil,
    fun id hid => absurd hid List.not_mem_nil⟩
  intro hne
  rw [h] at hne ⊢
  exact ⟨hne, UInt32.le_refl _⟩

/-- One id is taken and either returned or not. -/
theorem CounterStep.of_succ {reg reg' : InstrumentRegistry D} (hid : reg.nextId ≠ 0)
    (h : reg'.nextId = reg.nextId + 1) {ids : List InstrumentId}
    (hids : ids = [] ∨ ids = [reg.nextId]) : CounterStep reg reg' ids := by
  have hmem : ∀ id ∈ ids, id = reg.nextId := by
    intro id hmem
    rcases hids with rfl | rfl
    · cases hmem
    · exact List.mem_singleton.mp hmem
  refine ⟨?_, ?_, ?_, ?_⟩
  · intro hne
    rw [h] at hne ⊢
    exact ⟨hid, UInt32.le_of_lt (lt_add_one hne)⟩
  · rcases hids with rfl | rfl
    · exact .nil
    · exact List.pairwise_singleton ..
  · intro id hmem'
    rw [hmem id hmem']
    exact ⟨hid, UInt32.le_refl _⟩
  · intro id hmem' hne
    rw [hmem id hmem', h]
    rw [h] at hne
    exact lt_add_one hne

/-- Counter steps compose. -/
theorem CounterStep.append {a b c : InstrumentRegistry D} {ids ids' : List InstrumentId}
    (hab : CounterStep a b ids) (hbc : CounterStep b c ids') :
    CounterStep a c (ids ++ ids') := by
  refine ⟨?_, ?_, ?_, ?_⟩
  · intro hne
    obtain ⟨hb, hle⟩ := hbc.forward hne
    obtain ⟨ha, hle'⟩ := hab.forward hb
    exact ⟨ha, UInt32.le_trans hle' hle⟩
  · refine List.pairwise_append.mpr ⟨hab.increasing, hbc.increasing, ?_⟩
    intro id hid id' hid'
    obtain ⟨hb, hle⟩ := hbc.lower id' hid'
    exact UInt32.lt_of_lt_of_le (hab.upper id hid hb) hle
  · intro id hid
    rcases List.mem_append.mp hid with h | h
    · exact hab.lower id h
    · obtain ⟨hb, hle⟩ := hbc.lower id h
      obtain ⟨ha, hle'⟩ := hab.forward hb
      exact ⟨ha, UInt32.le_trans hle' hle⟩
  · intro id hid hne
    rcases List.mem_append.mp hid with h | h
    · obtain ⟨hb, hle⟩ := hbc.forward hne
      exact UInt32.lt_of_lt_of_le (hab.upper id h hb) hle
    · exact hbc.upper id h hne

/-- **Step lemma.** A call takes no id, one, or two in a row. -/
theorem step_counter (reg : InstrumentRegistry D) (c : Call D) :
    CounterStep reg (reg.step c) (reg.returnedIds c) := by
  have hout := outcome reg c
  simp only [returnedIds]
  generalize reg.step c = reg', reg.answer c = ans at hout ⊢
  cases hout with
  | registered hnew => exact .of_succ hnew.id_left rfl (Or.inr rfl)
  | burned hburns e => exact .of_succ hburns.2.1 rfl (Or.inl rfl)
  | @pair base timeframe metadata sym hnew hup hdown =>
      have hfirst : CounterStep reg (reg.registeredUp base timeframe metadata sym)
          [reg.nextId] := .of_succ hup rfl (Or.inr rfl)
      exact hfirst.append (.of_succ hdown rfl (Or.inr rfl))
  | half hhalf e => exact .of_succ hhalf.id_left rfl (Or.inl rfl)
  | rotated hc hget pm index => exact .of_eq rfl
  | failed hno e => exact .of_eq rfl

/-- **Run lemma.** The ids of a run ascend across its calls, failing ones included. -/
theorem run_counter (reg : InstrumentRegistry D) (calls : List (Call D)) :
    CounterStep reg (run step reg calls) (handedOut reg calls) := by
  induction calls generalizing reg with
  | nil => exact .of_eq rfl
  | cons c calls ih => exact (step_counter reg c).append (ih (reg.step c))

/-! ### Identities are permanent -/

/-- Every id a call returns is above all ids registered before, and is registered after. -/
def AssignsFresh (reg : InstrumentRegistry D) (c : Call D) : Prop :=
  ∀ id ∈ reg.returnedIds c,
    (∀ i record, reg.get i = some record → i < id) ∧ (reg.step c).identity id ≠ none

/-- No call changes the key, the metadata or the Binance binding under a registered id,
and a rotation changes no identity, no lookup and not the next id. -/
def KeepsIdentities (reg : InstrumentRegistry D) (c : Call D) : Prop :=
  (∀ i x, reg.identity i = some x → (reg.step c).identity i = some x) ∧
  (c.isRotation = true → SameIdentity reg (reg.step c))

/-- A registration is at an id nobody has, so it changes no identity there was. -/
theorem identity_registered {reg : InstrumentRegistry D} (hfresh : reg.IdsFresh)
    (hid : reg.nextId ≠ 0) (key : InstrumentKey) (metadata : InstrumentMeta D)
    (binance : Option BinanceBinding) (polymarket : Option PolymarketBinding) {i : InstrumentId}
    {x : CanonicalInstrument D × Option BinanceBinding} (hx : reg.identity i = some x) :
    (reg.registered key metadata binance polymarket).identity i = some x := by
  obtain ⟨record, hget, -⟩ := Option.map_eq_some_iff.mp hx
  have hlt := hfresh i record hget hid
  have hne : i ≠ reg.nextId := by
    intro heq
    exact absurd (heq ▸ hlt) (UInt32.lt_irrefl _)
  simp only [identity, get_registered]
  rw [if_neg hne]
  exact hx

theorem identity_registered_self (reg : InstrumentRegistry D) (key : InstrumentKey)
    (metadata : InstrumentMeta D) (binance : Option BinanceBinding)
    (polymarket : Option PolymarketBinding) :
    (reg.registered key metadata binance polymarket).identity reg.nextId =
      some (⟨reg.nextId, key, metadata⟩, binance) := by
  simp only [identity]
  rw [get_registered, if_pos rfl]
  rfl

/-- Every id a call returns has a record afterwards. -/
theorem returned_registered {reg : InstrumentRegistry D} (hreg : reg.Sound) (c : Call D)
    {id : InstrumentId} (hid : id ∈ reg.returnedIds c) : (reg.step c).identity id ≠ none := by
  have hout := outcome reg c
  simp only [returnedIds] at hid
  generalize reg.step c = reg', reg.answer c = ans at hout hid ⊢
  cases hout with
  | registered hnew =>
      obtain rfl := List.mem_singleton.mp hid
      rw [identity_registered_self]
      exact Option.some_ne_none _
  | @pair base timeframe metadata sym hnew hup hdown =>
      have hfresh : (reg.registeredUp base timeframe metadata sym).IdsFresh :=
        hreg.fresh.registered hup metadata _
      rcases List.mem_cons.mp hid with rfl | hid
      · -- the record of Up outlives the registration of Down
        rw [identity_registered hfresh hdown _ _ _ _ (identity_registered_self reg _ _ _ _)]
        exact Option.some_ne_none _
      · obtain rfl := List.mem_singleton.mp hid
        show InstrumentRegistry.identity _ (reg.registeredUp base timeframe metadata sym).nextId
          ≠ none
        rw [identity_registered_self]
        exact Option.some_ne_none _
  | burned hburns e => cases hid
  | half hhalf e => cases hid
  | rotated hc hget pm index => cases hid
  | failed hno e => cases hid

/-- Returned ids are at or above the counter, registered ones below it. -/
theorem step_assignsFresh {reg : InstrumentRegistry D} (hreg : reg.Sound) (c : Call D) :
    reg.AssignsFresh c := by
  intro id hid
  refine ⟨?_, returned_registered hreg c hid⟩
  intro i record hget
  obtain ⟨hne, hle⟩ := (step_counter reg c).lower id hid
  exact UInt32.lt_of_lt_of_le (hreg.fresh i record hget hne) hle

/-- No outcome touches the identity under a registered id. -/
theorem step_keepsIdentities {reg : InstrumentRegistry D} (hreg : reg.Sound) (c : Call D) :
    reg.KeepsIdentities c := by
  refine ⟨?_, rotation_sameIdentity reg c⟩
  intro i x hx
  have hout := outcome reg c
  generalize reg.step c = reg', reg.answer c = ans at hout ⊢
  cases hout with
  | registered hnew => exact identity_registered hreg.fresh hnew.id_left _ _ _ _ hx
  | burned hburns e => exact hx
  | @pair base timeframe metadata sym hnew hup hdown =>
      have hfresh : (reg.registeredUp base timeframe metadata sym).IdsFresh :=
        hreg.fresh.registered hup metadata _
      exact identity_registered hfresh hdown _ _ _ _
        (identity_registered hreg.fresh hup _ _ _ _ hx)
  | half hhalf e => exact identity_registered hreg.fresh hhalf.id_left _ _ _ _ hx
  | rotated hc hget pm index =>
      rw [(sameIdentity_setWindows hget pm index).records]
      exact hx
  | failed hno e => exact hx

/-- **Identities.** In every run from an empty registry, failing calls included: the maps
are consistent in every state; the ids handed out are nonzero and strictly increasing, so
none is handed out twice; each is above every id registered before it; and an identity,
once registered, never changes, in particular not by a rotation. -/
theorem identities_permanent (calls : List (Call D)) :
    Always step Consistent new calls ∧
    (handedOut new calls).Pairwise (· < ·) ∧
    (∀ id ∈ handedOut (new : InstrumentRegistry D) calls, id ≠ 0) ∧
    AllSteps step AssignsFresh new calls ∧
    AllSteps step KeepsIdentities new calls := by
  have hcounter := run_counter (new : InstrumentRegistry D) calls
  have hsteps : AllSteps step (fun _ _ => True) (new : InstrumentRegistry D) calls :=
    allSteps_of_forall (fun _ _ => trivial) new
  refine ⟨?_, hcounter.increasing, ?_, ?_, ?_⟩
  · intro pre hpre
    have hsound : Always step Sound (new : InstrumentRegistry D) calls :=
      always_of_step (P := Sound) (fun _ c hs => step_sound hs c) sound_new calls
    exact (hsound pre hpre).consistent
  · intro id hid h0
    -- the counter starts at one and ids only go up from there
    have hle : (1 : UInt32) ≤ id := (hcounter.lower id hid).2
    rw [h0] at hle
    exact absurd hle (by decide)
  · exact allSteps_of_invariant (fun _ c hs _ => step_sound hs c)
      (fun _ c hs _ => step_assignsFresh hs c) sound_new hsteps
  · exact allSteps_of_invariant (fun _ c hs _ => step_sound hs c)
      (fun _ c hs _ => step_keepsIdentities hs c) sound_new hsteps

/-! ### Atomicity on error -/

/-- If the call fails, the whole registry is as before. -/
def AtomicOnError (reg : InstrumentRegistry D) (c : Call D) : Prop :=
  ∀ e, reg.answer c = .error e → reg.step c = reg

/-- A registry whose counter moved is another registry. -/
theorem ne_of_nextId_succ {reg reg' : InstrumentRegistry D}
    (h : reg'.nextId = reg.nextId + 1) : reg' ≠ reg := by
  rintro rfl
  simp at h

/-- A failing call leaves the registry as it was unless it burns an id or inserts half a pair. -/
theorem atomicOnError_iff (reg : InstrumentRegistry D) (c : Call D) :
    reg.AtomicOnError c ↔ ¬ reg.LeavesTrace c := by
  have hout := outcome reg c
  simp only [AtomicOnError]
  generalize reg.step c = reg', reg.answer c = ans at hout ⊢
  cases hout with
  | registered hnew =>
      refine iff_of_true (fun e he => by cases he) ?_
      rintro ⟨-, -, bn, hbn, hmem⟩
      exact hnew.symbol_new bn hbn hmem
  | burned hburns e =>
      refine iff_of_false ?_ (not_not_intro hburns)
      intro h
      exact ne_of_nextId_succ rfl (h e rfl)
  | pair hnew hup hdown =>
      refine iff_of_true (fun e he => by cases he) ?_
      rintro ⟨-, hlast⟩
      exact hdown hlast
  | half hhalf e =>
      refine iff_of_false ?_ (not_not_intro hhalf)
      intro h
      exact ne_of_nextId_succ rfl (h e rfl)
  | rotated hc hget pm index =>
      exact iff_of_true (fun e he => by cases he) (reg.not_leavesTrace_of_rotation hc)
  | failed hno e => exact iff_of_true (fun _ _ => rfl) hno

/-- **Atomicity on error.** In a run from any registry, every failing call leaves the
registry as it was if and only if no call is an `insert` with a new key and a taken
symbol, and none is a pair insertion of a new pair at the last id. -/
theorem atomic_iff_leaves_no_trace (reg : InstrumentRegistry D) (calls : List (Call D)) :
    AllSteps step AtomicOnError reg calls ↔
      AllSteps step (fun reg c => ¬ reg.LeavesTrace c) reg calls := by
  have hgood : (AtomicOnError : InstrumentRegistry D → Call D → Prop) =
      fun reg c => ¬ reg.LeavesTrace c := by
    funext reg c
    exact propext (atomicOnError_iff reg c)
  rw [hgood]

/-- Tick and lot size of one cent. -/
def centMeta : InstrumentMeta 6 :=
  ⟨⟨10000⟩, ⟨10000⟩, InstrumentMeta.toInt_pos_of_isPositive rfl,
    InstrumentMeta.toInt_pos_of_isPositive rfl⟩

/-- The second instrument has a key of its own but the symbol of the first. -/
def takenSymbolRun : List (Call 6) :=
  [.insert ⟨.spot, .btc, some .usdt, none, none⟩ centMeta (some ⟨"BTCUSDT"⟩) none,
    .insert ⟨.perp, .btc, some .usdt, none, none⟩ centMeta (some ⟨"BTCUSDT"⟩) none]

/-- The second call is refused, yet the next id to be assigned has moved from 2 to 3. -/
theorem refused_symbol_burns_id :
    (run step new (takenSymbolRun.take 1)).nextId = 2 ∧
    (run step new (takenSymbolRun.take 1)).insert ⟨.perp, .btc, some .usdt, none, none⟩ centMeta
        (some ⟨"BTCUSDT"⟩) none =
      (run step new takenSymbolRun, .error (.duplicateBinanceSymbol "BTCUSDT")) ∧
    (run step new takenSymbolRun).nextId = 3 ∧
    ¬ AllSteps step AtomicOnError new takenSymbolRun := by
  refine ⟨by decide, rfl, by decide, ?_⟩
  rintro ⟨-, hsecond, -⟩
  have heq := hsecond (.duplicateBinanceSymbol "BTCUSDT") rfl
  exact ne_of_nextId_succ rfl heq

end Mantis.InstrumentRegistry
