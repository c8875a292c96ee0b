import Mantis.Registry.Identity

/-!
# Mantis.Registry.ReverseIndex

The reverse index `token_id → InstrumentId` against the windows it is derived from.

Every rotation edits the index by hand: it removes the token of the window it
replaces and adds the new one. Removing is right only if no other window of the
record still carries that token. `sharedToken` names the case in which one does,
and `indexExact_iff` proves it to be the only one: a run keeps the index exact
throughout if and only if no rotation replaces one of two windows that share a
token by a window with another token.
-/

namespace Mantis

/-- `t` is the token of the current or of the next window. -/
def PolymarketBinding.Holds (pm : PolymarketBinding) (t : String) : Prop :=
  pm.current.map (·.tokenId) = some t ∨ pm.next.map (·.tokenId) = some t

/-- The token both windows carry, if they carry the same one. -/
def PolymarketBinding.sharedToken (pm : PolymarketBinding) : Option String :=
  match pm.current, pm.next with
  | some current, some next => if current.tokenId = next.tokenId then some current.tokenId else none
  | _, _ => none

theorem PolymarketBinding.sharedToken_eq_some {pm : PolymarketBinding} {t : String} :
    pm.sharedToken = some t ↔
      pm.current.map (·.tokenId) = some t ∧ pm.next.map (·.tokenId) = some t := by
  simp only [sharedToken]
  split
  · next current next hc hn =>
      simp only [hc, hn, Option.map_some, Option.some.injEq]
      grind
  · next hnone =>
      simp only [Option.map_eq_some_iff, reduceCtorEq, false_iff]
      intro h
      obtain ⟨⟨c, hc, -⟩, n, hn, -⟩ := h
      exact hnone c n hc hn

namespace InstrumentRegistry

open Runs

variable {D : Nat}

/-! ### Lookups in an edited index -/

theorem lookup_unindex (index : AList fun _ : String => InstrumentId)
    (window : Option PolymarketWindowBinding) (t : String) :
    (unindex index window).lookup t =
      if window.map (·.tokenId) = some t then none else index.lookup t := by
  cases window with
  | none => rfl
  | some old =>
      show (index.erase old.tokenId).lookup t = _
      by_cases h : old.tokenId = t
      · subst h
        rw [if_pos (Option.map_some ..)]
        exact AList.lookup_erase old.tokenId index
      · rw [if_neg (by simpa using h)]
        exact AList.lookup_erase_ne (Ne.symm h)

/-! ### Windows and the index -/

/-- `t` is the token of a window in the record of `i`. -/
def HoldsToken (reg : InstrumentRegistry D) (i : InstrumentId) (t : String) : Prop :=
  ∃ record pm, reg.get i = some record ∧ record.polymarket = some pm ∧ pm.Holds t

/-- The reverse index lists exactly the tokens of the windows, each under the
instrument whose window it is. -/
def IndexExact (reg : InstrumentRegistry D) : Prop :=
  (∀ t i, reg.findByPolymarketTokenId t = some i ↔ reg.HoldsToken i t) ∧
  ∀ t, t ∈ reg.activePolymarketTokenIds ↔ ∃ i, reg.HoldsToken i t

/-- The listing follows from the lookups. -/
theorem indexExact_iff_lookup (reg : InstrumentRegistry D) :
    reg.IndexExact ↔
      ∀ t i, reg.byPolymarketTokenId.lookup t = some i ↔ reg.HoldsToken i t := by
  refine ⟨fun h => h.1, fun h => ⟨h, ?_⟩⟩
  intro t
  show t ∈ reg.byPolymarketTokenId.keys ↔ _
  rw [← AList.mem_keys, ← AList.lookup_isSome, Option.isSome_iff_exists]
  exact exists_congr (h t)

theorem holdsToken_of_polymarketMut {reg : InstrumentRegistry D} {id : InstrumentId}
    {record : InstrumentRecord D} {pm : PolymarketBinding}
    (h : reg.polymarketMut id = .ok (record, pm)) (t : String) :
    reg.HoldsToken id t ↔ pm.Holds t := by
  obtain ⟨hget, hpm⟩ := polymarketMut_eq_ok.mp h
  simp only [HoldsToken]
  grind

theorem holdsToken_setWindows (reg : InstrumentRegistry D) (id : InstrumentId)
    (record : InstrumentRecord D) (pm : PolymarketBinding)
    (index : AList fun _ : String => InstrumentId) (i : InstrumentId) (t : String) :
    (reg.setWindows id record pm index).HoldsToken i t ↔
      if i = id then pm.Holds t else reg.HoldsToken i t := by
  simp only [HoldsToken, setWindows, get]
  simp only [lookup_insert_ite]
  split
  · simp
  · rfl

/-! ### Registering instruments -/

/-- The polymarket argument is absent or has no windows. -/
def NoWindows (polymarket : Option PolymarketBinding) : Prop :=
  polymarket = none ∨ polymarket = some .default

/-- `reg'` has the index and the windows of `reg`. -/
structure SameTokens (reg reg' : InstrumentRegistry D) : Prop where
  index : reg'.byPolymarketTokenId = reg.byPolymarketTokenId
  windows : ∀ i t, reg'.HoldsToken i t ↔ reg.HoldsToken i t

theorem SameTokens.indexExact_congr {reg reg' : InstrumentRegistry D} (h : SameTokens reg reg') :
    reg'.IndexExact ↔ reg.IndexExact := by
  rw [indexExact_iff_lookup, indexExact_iff_lookup, h.index]
  simp only [h.windows]

theorem SameTokens.trans {a b c : InstrumentRegistry D} (hab : SameTokens a b)
    (hbc : SameTokens b c) : SameTokens a c :=
  ⟨hbc.index.trans hab.index, fun i t => (hbc.windows i t).trans (hab.windows i t)⟩

theorem SameTokens.refl (reg : InstrumentRegistry D) : SameTokens reg reg :=
  ⟨rfl, fun _ _ => Iff.rfl⟩

/-- Registering an instrument without windows touches no window and no index entry,
because the id it uses is fresh. -/
theorem sameTokens_registered {reg : InstrumentRegistry D} (hfresh : reg.IdsFresh)
    (hid : reg.nextId ≠ 0) (key : InstrumentKey) (metadata : InstrumentMeta D)
    (binance : Option BinanceBinding) {polymarket : Option PolymarketBinding}
    (hpm : NoWindows polymarket) :
    SameTokens reg (reg.registered key metadata binance polymarket) := by
  refine ⟨rfl, ?_⟩
  intro i t
  simp only [HoldsToken, get_registered]
  split
  · next hi =>
      -- neither the new record nor the absent old one has a window
      have hold : ∀ record, reg.get i ≠ some record := fun record hr =>
        absurd (hi ▸ hfresh i record hr hid) (UInt32.lt_irrefl _)
      rcases hpm with rfl | rfl <;>
        simp [hold, PolymarketBinding.Holds, PolymarketBinding.default]
  · rfl

theorem insert_sameTokens {reg : InstrumentRegistry D} (hfresh : reg.IdsFresh)
    (key : InstrumentKey) (metadata : InstrumentMeta D) (binance : Option BinanceBinding)
    {polymarket : Option PolymarketBinding} (hpm : NoWindows polymarket) :
    SameTokens reg (reg.insert key metadata binance polymarket).1 ∧
      (reg.insert key metadata binance polymarket).1.IdsFresh := by
  rcases insert_outcome reg key metadata binance polymarket with
    ⟨hnew, heq⟩ | ⟨hburns, e, heq⟩ | ⟨-, -, e, heq⟩
  · rw [heq]
    exact ⟨sameTokens_registered hfresh hnew.id_left key metadata binance hpm,
      hfresh.registered hnew.id_left metadata polymarket⟩
  · rw [heq]
    exact ⟨⟨rfl, fun _ _ => Iff.rfl⟩, hfresh.burned hburns.2.1⟩
  · rw [heq]
    exact ⟨.refl reg, hfresh⟩

/-- A prediction pair is two such registrations, the second one only if an id is left. -/
theorem insertPredictionPair_sameTokens {reg : InstrumentRegistry D} (hfresh : reg.IdsFresh)
    (base : Asset) (timeframe : Timeframe) (metadata : InstrumentMeta D)
    (binanceSymbol : Option String) :
    SameTokens reg (reg.insertPredictionPair base timeframe metadata binanceSymbol).1 ∧
      (reg.insertPredictionPair base timeframe metadata binanceSymbol).1.IdsFresh := by
  have hwindows : NoWindows (some PolymarketBinding.default) := Or.inr rfl
  have hup : reg.nextId ≠ 0 →
      SameTokens reg (reg.registeredUp base timeframe metadata binanceSymbol) ∧
        (reg.registeredUp base timeframe metadata binanceSymbol).IdsFresh := fun hid =>
    ⟨sameTokens_registered hfresh hid _ metadata _ hwindows, hfresh.registered hid metadata _⟩
  rcases insertPredictionPair_outcome reg base timeframe metadata binanceSymbol with
    ⟨-, hid, hid', heq⟩ | ⟨hhalf, e, heq⟩ | ⟨-, e, heq⟩
  · rw [heq]
    obtain ⟨hsame, hupFresh⟩ := hup hid
    exact ⟨hsame.trans (sameTokens_registered hupFresh hid' _ metadata none hwindows),
      hupFresh.registered hid' metadata _⟩
  · rw [heq]
    exact hup hhalf.id_left
  · rw [heq]
    exact ⟨.refl reg, hfresh⟩

/-! ### Rotations -/

/-- A rotation of `id` that leaves the other instruments' entries alone is exact if and
only if the new entries of `id` are its new windows. -/
theorem indexExact_setWindows_iff {reg : InstrumentRegistry D} (hexact : reg.IndexExact)
    {id : InstrumentId} {record : InstrumentRecord D} {pm' : PolymarketBinding}
    {index' : AList fun _ : String => InstrumentId}
    (hothers : ∀ t j, j ≠ id →
      (index'.lookup t = some j ↔ reg.byPolymarketTokenId.lookup t = some j)) :
    (reg.setWindows id record pm' index').IndexExact ↔
      ∀ t, index'.lookup t = some id ↔ pm'.Holds t := by
  rw [indexExact_iff_lookup] at hexact ⊢
  simp only [holdsToken_setWindows]
  show (∀ t i, index'.lookup t = some i ↔ _) ↔ _
  refine ⟨?_, ?_⟩
  · intro h t
    simpa using h t id
  · intro h t i
    by_cases hi : i = id
    · subst hi
      simpa using h t
    · rw [if_neg hi, ← hexact t i]
      exact hothers t i hi

/-- The token shared by the two windows of `id`, if there is one. -/
def sharedToken (reg : InstrumentRegistry D) (id : InstrumentId) : Option String :=
  match reg.polymarketMut id with
  | .ok (_, pm) => pm.sharedToken
  | .error _ => none

/-- The call does not replace one of two windows that share a token by a window with
another token. -/
def KeepsShared (reg : InstrumentRegistry D) : Call D → Prop
  | .bindPolymarketCurrent id binding | .bindPolymarketNext id binding =>
      ∀ t, reg.sharedToken id = some t → binding.tokenId = t
  | .promotePolymarketNext id => reg.sharedToken id = none
  | _ => True

/-- The call registers no windows, and binds a token only to the instrument that owns
it. A bind that fails binds nothing. -/
def RespectsOwner (owner : String → InstrumentId) (reg : InstrumentRegistry D) : Call D → Prop
  | .insert _ _ _ polymarket => NoWindows polymarket
  | .bindPolymarketCurrent id binding =>
      (reg.bindPolymarketCurrent id binding).2 = .ok () → owner binding.tokenId = id
  | .bindPolymarketNext id binding =>
      (reg.bindPolymarketNext id binding).2 = .ok () → owner binding.tokenId = id
  | _ => True

/-- Ids are fresh and every window's token belongs to its owner. -/
structure Owned (owner : String → InstrumentId) (reg : InstrumentRegistry D) : Prop where
  fresh : reg.IdsFresh
  windows : ∀ i t, reg.HoldsToken i t → owner t = i

theorem SameTokens.owned {owner : String → InstrumentId} {reg reg' : InstrumentRegistry D}
    (h : SameTokens reg reg') (hfresh : reg'.IdsFresh) (hown : reg.Owned owner) :
    reg'.Owned owner := ⟨hfresh, fun i t hi => hown.windows i t ((h.windows i t).mp hi)⟩

/-- A rotation keeps ids fresh, and ownership if its new windows are owned. -/
theorem Owned.setWindows {owner : String → InstrumentId} {reg : InstrumentRegistry D}
    {id : InstrumentId} {record : InstrumentRecord D} {pm pm' : PolymarketBinding}
    (h : reg.Owned owner) (hmut : reg.polymarketMut id = .ok (record, pm))
    (hpm' : ∀ t, pm'.Holds t → pm.Holds t ∨ owner t = id)
    (index' : AList fun _ : String => InstrumentId) :
    (reg.setWindows id record pm' index').Owned owner := by
  refine ⟨?_, ?_⟩
  · intro i record' hi hne
    simp only [InstrumentRegistry.setWindows, get] at hi
    rw [lookup_insert_ite] at hi
    split at hi
    · next heq => exact heq ▸ h.fresh id record (polymarketMut_eq_ok.mp hmut).1 hne
    · exact h.fresh i record' hi hne
  · intro i t hi
    rw [holdsToken_setWindows] at hi
    split at hi
    · next heq =>
        subst heq
        rcases hpm' t hi with hold | hnew
        · exact h.windows i t ((holdsToken_of_polymarketMut hmut t).mpr hold)
        · exact hnew
    · exact h.windows i t hi

/-- The entries of `id` before a rotation are its windows; no other instrument's entry
carries one of their tokens or a token owned by `id`. -/
theorem lookup_of_exact {owner : String → InstrumentId} {reg : InstrumentRegistry D}
    (hown : reg.Owned owner) (hexact : reg.IndexExact) {id : InstrumentId}
    {record : InstrumentRecord D} {pm : PolymarketBinding}
    (hmut : reg.polymarketMut id = .ok (record, pm)) :
    (∀ t, reg.byPolymarketTokenId.lookup t = some id ↔ pm.Holds t) ∧
    ∀ t j, j ≠ id → reg.byPolymarketTokenId.lookup t = some j → owner t ≠ id := by
  rw [indexExact_iff_lookup] at hexact
  refine ⟨?_, ?_⟩
  · intro t
    rw [hexact, holdsToken_of_polymarketMut hmut]
  · intro t j hj hlook howner
    exact hj ((hown.windows j t ((hexact t j).mp hlook)).symm.trans howner)

section Edit

variable {index : AList fun _ : String => InstrumentId} {id : InstrumentId}
  {old kept : Option PolymarketWindowBinding}

/-- **Removing a window.** The entries left over are those of the kept window exactly
when the two windows do not share a token. -/
theorem lookup_unindex_iff
    (hself : ∀ t, index.lookup t = some id ↔
      old.map (·.tokenId) = some t ∨ kept.map (·.tokenId) = some t) :
    (∀ t, (unindex index old).lookup t = some id ↔ kept.map (·.tokenId) = some t) ↔
      ∀ t, old.map (·.tokenId) = some t → kept.map (·.tokenId) ≠ some t := by
  simp only [lookup_unindex]
  refine ⟨?_, ?_⟩
  · intro h t hold hkept
    have hlost := (h t).mpr hkept
    rw [if_pos hold] at hlost
    cases hlost
  · intro h t
    by_cases hold : old.map (·.tokenId) = some t
    · simp [hold, h t hold]
    · rw [if_neg hold, hself t]
      exact or_iff_right hold

/-- **Replacing a window.** If the two windows share a token, it survives only as the
token of the new window. -/
theorem lookup_rebind_iff
    (hself : ∀ t, index.lookup t = some id ↔
      old.map (·.tokenId) = some t ∨ kept.map (·.tokenId) = some t)
    (binding : PolymarketWindowBinding) :
    (∀ t, ((unindex index old).insert binding.tokenId id).lookup t = some id ↔
        binding.tokenId = t ∨ kept.map (·.tokenId) = some t) ↔
      ∀ t, old.map (·.tokenId) = some t → kept.map (·.tokenId) = some t →
        binding.tokenId = t := by
  simp only [lookup_insert_ite, lookup_unindex]
  refine ⟨?_, ?_⟩
  · intro h t hold hkept
    have hfound := (h t).mpr (Or.inr hkept)
    by_contra hne
    rw [if_neg (Ne.symm hne), if_pos hold] at hfound
    cases hfound
  · intro h t
    by_cases hnew : binding.tokenId = t
    · simp [hnew]
    · rw [if_neg (Ne.symm hnew), or_iff_right hnew]
      by_cases hold : old.map (·.tokenId) = some t
      · -- the old token goes; the kept window must not need it
        rw [if_pos hold]
        exact ⟨fun hc => absurd hc (by simp), fun hkept => absurd (h t hold hkept) hnew⟩
      · rw [if_neg hold, hself t]
        exact or_iff_right hold

/-- Removing a window of `id` leaves the entries of other instruments alone. -/
theorem lookup_unindex_other
    (hold : ∀ t, old.map (·.tokenId) = some t → index.lookup t = some id) (t : String)
    {j : InstrumentId} (hj : j ≠ id) :
    (unindex index old).lookup t = some j ↔ index.lookup t = some j := by
  rw [lookup_unindex]
  split
  · next h => simp [hold t h, hj.symm]
  · rfl

/-- Adding a token that only `id` may carry leaves the entries of other instruments
alone. -/
theorem lookup_insert_other {token : String}
    (hown : ∀ j, j ≠ id → index.lookup token ≠ some j) (t : String) {j : InstrumentId}
    (hj : j ≠ id) :
    (index.insert token id).lookup t = some j ↔ index.lookup t = some j := by
  rw [lookup_insert_ite]
  split
  · next h =>
      subst h
      simp [hj.symm, hown j hj]
  · rfl

end Edit

section Rotation

variable {owner : String → InstrumentId} {reg : InstrumentRegistry D} {id : InstrumentId}
  {record : InstrumentRecord D} {pm : PolymarketBinding}

theorem sharedToken_of_polymarketMut (hmut : reg.polymarketMut id = .ok (record, pm)) :
    reg.sharedToken id = pm.sharedToken := by
  simp only [sharedToken]
  rw [hmut]

/-- A rebind of either window: `old` is the replaced one, `kept` the other, `pm'` the
result. -/
theorem rebind_exact_iff (hown : reg.Owned owner) (hexact : reg.IndexExact)
    (hmut : reg.polymarketMut id = .ok (record, pm)) {binding : PolymarketWindowBinding}
    (hbind : owner binding.tokenId = id) {old kept : Option PolymarketWindowBinding}
    {pm' : PolymarketBinding}
    (hpm : ∀ t, pm.Holds t ↔ old.map (·.tokenId) = some t ∨ kept.map (·.tokenId) = some t)
    (hpm' : ∀ t, pm'.Holds t ↔ binding.tokenId = t ∨ kept.map (·.tokenId) = some t)
    (hshared : ∀ t, pm.sharedToken = some t ↔
      old.map (·.tokenId) = some t ∧ kept.map (·.tokenId) = some t) :
    (reg.setWindows id record pm'
        ((unindex reg.byPolymarketTokenId old).insert binding.tokenId id)).IndexExact ↔
      ∀ t, reg.sharedToken id = some t → binding.tokenId = t := by
  obtain ⟨hself, hother⟩ := lookup_of_exact hown hexact hmut
  have hold : ∀ t, old.map (·.tokenId) = some t →
      reg.byPolymarketTokenId.lookup t = some id := fun t ht =>
    (hself t).mpr ((hpm t).mpr (Or.inl ht))
  have hothers : ∀ t j, j ≠ id →
      (((unindex reg.byPolymarketTokenId old).insert binding.tokenId id).lookup t = some j ↔
        reg.byPolymarketTokenId.lookup t = some j) := by
    intro t j hj
    rw [lookup_insert_other ?_ t hj, lookup_unindex_other hold t hj]
    intro k hk hlook
    rw [lookup_unindex_other hold _ hk] at hlook
    exact hother _ k hk hlook hbind
  rw [indexExact_setWindows_iff hexact hothers, sharedToken_of_polymarketMut hmut]
  simp only [hpm', hshared, and_imp]
  exact lookup_rebind_iff (fun t => (hself t).trans (hpm t)) binding

theorem promote_exact_iff (hown : reg.Owned owner) (hexact : reg.IndexExact)
    (hmut : reg.polymarketMut id = .ok (record, pm)) {next : PolymarketWindowBinding}
    (hnext : pm.next = some next) :
    (reg.setWindows id record ⟨some next, none⟩
        (unindex reg.byPolymarketTokenId pm.current)).IndexExact ↔
      reg.sharedToken id = none := by
  obtain ⟨hself, -⟩ := lookup_of_exact hown hexact hmut
  have hothers : ∀ t j, j ≠ id → ((unindex reg.byPolymarketTokenId pm.current).lookup t = some j ↔
      reg.byPolymarketTokenId.lookup t = some j) := fun t j hj =>
    lookup_unindex_other (fun t ht => (hself t).mpr (Or.inl ht)) t hj
  have hholds : ∀ t, (⟨some next, none⟩ : PolymarketBinding).Holds t ↔
      pm.next.map (·.tokenId) = some t := by
    intro t
    simp [PolymarketBinding.Holds, hnext]
  rw [indexExact_setWindows_iff hexact hothers, sharedToken_of_polymarketMut hmut]
  simp only [hholds]
  rw [lookup_unindex_iff hself, Option.eq_none_iff_forall_ne_some]
  simp only [ne_eq, PolymarketBinding.sharedToken_eq_some, not_and]

theorem unbind_exact (hown : reg.Owned owner) (hexact : reg.IndexExact)
    (hmut : reg.polymarketMut id = .ok (record, pm)) :
    (reg.setWindows id record ⟨none, none⟩
        (unindex (unindex reg.byPolymarketTokenId pm.current) pm.next)).IndexExact := by
  obtain ⟨hself, -⟩ := lookup_of_exact hown hexact hmut
  refine (indexExact_setWindows_iff hexact ?_).mpr ?_
  · intro t j hj
    simp only [lookup_unindex]
    split
    · next h => simp [(hself t).mpr (Or.inr h), hj.symm]
    · split
      · next h => simp [(hself t).mpr (Or.inl h), hj.symm]
      · rfl
  · intro t
    simp only [lookup_unindex]
    have hgone : ¬ (⟨none, none⟩ : PolymarketBinding).Holds t := by
      simp [PolymarketBinding.Holds]
    refine ⟨?_, fun h => absurd h hgone⟩
    intro hlook
    split at hlook
    · cases hlook
    · next hn =>
        split at hlook
        · cases hlook
        · next hc => exact absurd ((hself t).mp hlook) (fun h => h.elim hc hn)

end Rotation

/-! ### One call -/

/-- What one call does: it keeps ownership, and on an exact index the result is exact if
and only if the call keeps shared tokens. -/
structure StepSpec (owner : String → InstrumentId) (reg reg' : InstrumentRegistry D)
    (keeps : Prop) : Prop where
  owned : reg'.Owned owner
  exact_iff : reg.IndexExact → (reg'.IndexExact ↔ keeps)

theorem StepSpec.of_sameTokens {owner : String → InstrumentId} {reg reg' : InstrumentRegistry D}
    {keeps : Prop} (hown : reg.Owned owner) (hsame : SameTokens reg reg')
    (hfresh : reg'.IdsFresh) (hkeeps : keeps) : StepSpec owner reg reg' keeps :=
  ⟨hsame.owned hfresh hown, fun hexact => iff_of_true (hsame.indexExact_congr.mpr hexact) hkeeps⟩

theorem sharedToken_of_error {reg : InstrumentRegistry D} {id : InstrumentId} {e : RegistryError}
    (he : reg.polymarketMut id = .error e) : reg.sharedToken id = none := by
  simp only [sharedToken]
  rw [he]

/-- A bind that fails changes nothing. -/
theorem StepSpec.of_bind_error {owner : String → InstrumentId} {reg : InstrumentRegistry D}
    {id : InstrumentId} {e : RegistryError} (hown : reg.Owned owner)
    (he : reg.polymarketMut id = .error e) (binding : PolymarketWindowBinding) :
    StepSpec owner reg reg (∀ t, reg.sharedToken id = some t → binding.tokenId = t) := by
  refine .of_sameTokens hown (.refl reg) hown.fresh ?_
  intro t ht
  rw [sharedToken_of_error he] at ht
  cases ht

/-- A bind of either window: `old` is the replaced one, `kept` the other, `pm'` the
result. -/
theorem StepSpec.of_rebind {owner : String → InstrumentId} {reg : InstrumentRegistry D}
    {id : InstrumentId} {record : InstrumentRecord D} {pm pm' : PolymarketBinding}
    {binding : PolymarketWindowBinding} {old kept : Option PolymarketWindowBinding}
    (hown : reg.Owned owner) (hmut : reg.polymarketMut id = .ok (record, pm))
    (hbind : owner binding.tokenId = id)
    (hpm : ∀ t, pm.Holds t ↔ old.map (·.tokenId) = some t ∨ kept.map (·.tokenId) = some t)
    (hpm' : ∀ t, pm'.Holds t ↔ binding.tokenId = t ∨ kept.map (·.tokenId) = some t)
    (hshared : ∀ t, pm.sharedToken = some t ↔
      old.map (·.tokenId) = some t ∧ kept.map (·.tokenId) = some t) :
    StepSpec owner reg
      (reg.setWindows id record pm'
        ((unindex reg.byPolymarketTokenId old).insert binding.tokenId id))
      (∀ t, reg.sharedToken id = some t → binding.tokenId = t) := by
  refine ⟨hown.setWindows hmut ?_ _, ?_⟩
  · intro t ht
    rcases (hpm' t).mp ht with rfl | hkept
    · exact Or.inr hbind
    · exact Or.inl ((hpm t).mpr (Or.inr hkept))
  · intro hexact
    exact rebind_exact_iff hown hexact hmut hbind hpm hpm' hshared

theorem step_spec {owner : String → InstrumentId} {reg : InstrumentRegistry D} {c : Call D}
    (hown : reg.Owned owner) (hc : RespectsOwner owner reg c) :
    StepSpec owner reg (reg.step c) (reg.KeepsShared c) := by
  cases c with
  | insert key metadata binance polymarket =>
      obtain ⟨hsame, hfresh⟩ := insert_sameTokens hown.fresh key metadata binance hc
      exact .of_sameTokens hown hsame hfresh trivial
  | insertPredictionPair base timeframe metadata sym =>
      obtain ⟨hsame, hfresh⟩ :=
        insertPredictionPair_sameTokens hown.fresh base timeframe metadata sym
      exact .of_sameTokens hown hsame hfresh trivial
  | bindPolymarketCurrent id binding =>
      simp only [step, KeepsShared, RespectsOwner, bindPolymarketCurrent] at hc ⊢
      cases hmut : reg.polymarketMut id with
      | error e => exact .of_bind_error hown hmut binding
      | ok p =>
          rw [hmut] at hc
          refine .of_rebind hown hmut (hc rfl) (fun t => Iff.rfl) ?_
            (fun t => PolymarketBinding.sharedToken_eq_some)
          intro t
          simp [PolymarketBinding.Holds]
  | bindPolymarketNext id binding =>
      simp only [step, KeepsShared, RespectsOwner, bindPolymarketNext] at hc ⊢
      cases hmut : reg.polymarketMut id with
      | error e => exact .of_bind_error hown hmut binding
      | ok p =>
          rw [hmut] at hc
          refine .of_rebind hown hmut (hc rfl) (fun t => or_comm) ?_
            (fun t => PolymarketBinding.sharedToken_eq_some.trans and_comm)
          intro t
          simp [PolymarketBinding.Holds, or_comm]
  | promotePolymarketNext id =>
      simp only [step, KeepsShared, promotePolymarketNext]
      cases hmut : reg.polymarketMut id with
      | error e =>
          exact .of_sameTokens hown (.refl reg) hown.fresh (sharedToken_of_error hmut)
      | ok p =>
          dsimp only
          cases hnext : p.2.next with
          | none =>
              refine .of_sameTokens hown (.refl reg) hown.fresh ?_
              rw [sharedToken_of_polymarketMut hmut, Option.eq_none_iff_forall_ne_some]
              intro t ht
              simp [PolymarketBinding.sharedToken_eq_some, hnext] at ht
          | some next =>
              refine ⟨hown.setWindows hmut (fun t ht => ?_) _,
                fun hexact => promote_exact_iff hown hexact hmut hnext⟩
              refine Or.inl (Or.inr ?_)
              simpa [PolymarketBinding.Holds, hnext] using ht
  | unbindPolymarket id =>
      simp only [step, KeepsShared, unbindPolymarket]
      cases hmut : reg.polymarketMut id with
      | error e => exact .of_sameTokens hown (.refl reg) hown.fresh trivial
      | ok p =>
          refine ⟨hown.setWindows hmut (fun t ht => ?_) _,
            fun hexact => iff_of_true (unbind_exact hown hexact hmut) trivial⟩
          simp [PolymarketBinding.Holds] at ht

/-! ### Whole runs -/

theorem holdsToken_new (i : InstrumentId) (t : String) :
    ¬ (new : InstrumentRegistry D).HoldsToken i t := by
  intro h
  obtain ⟨record, pm, hget, -⟩ := h
  rw [get_new] at hget
  cases hget

theorem indexExact_new : (new : InstrumentRegistry D).IndexExact := by
  rw [indexExact_iff_lookup]
  intro t i
  have hnone : (new : InstrumentRegistry D).byPolymarketTokenId.lookup t = none :=
    AList.lookup_empty t
  rw [hnone]
  exact iff_of_false (by simp) (holdsToken_new i t)

theorem owned_new (owner : String → InstrumentId) : (new : InstrumentRegistry D).Owned owner :=
  ⟨sound_new.fresh, fun i t h => absurd h (holdsToken_new i t)⟩

/-- **Exactness of the reverse index.** In a run from an empty registry in which every
token is bound to one instrument only, the index is exact in every state if and only
if every call keeps shared tokens. -/
theorem indexExact_iff (owner : String → InstrumentId) (calls : List (Call D))
    (hcalls : AllSteps step (RespectsOwner owner) new calls) :
    Always step IndexExact new calls ↔ AllSteps step KeepsShared new calls :=
  always_iff_allSteps (fun _ _ hown hc => (step_spec hown hc).owned)
    (fun _ _ hown hc hexact => (step_spec hown hc).exact_iff hexact)
    (owned_new owner) indexExact_new hcalls

/-- A window with the given token. -/
def windowOf (tokenId : String) : PolymarketWindowBinding := ⟨tokenId, "btc-15m", 100, 200, none⟩

/-- The next window is announced under the token the current window still has, and is
then promoted. -/
def sharedTokenRun : List (Call 6) :=
  [.insertPredictionPair .btc .m15 centMeta none, .bindPolymarketCurrent 1 (windowOf "tok"),
    .bindPolymarketNext 1 (windowOf "tok"), .promotePolymarketNext 1]

/-- After the promotion the current window's token no longer resolves, although it was
only ever bound to instrument 1. -/
theorem promoted_token_lost :
    AllSteps step (RespectsOwner fun _ => 1) new sharedTokenRun ∧
    (run step new sharedTokenRun).HoldsToken 1 "tok" ∧
    (run step new sharedTokenRun).findByPolymarketTokenId "tok" = none ∧
    "tok" ∉ (run step new sharedTokenRun).activePolymarketTokenIds ∧
    ¬ Always step IndexExact new sharedTokenRun := by
  have hholds : (run step new sharedTokenRun).HoldsToken 1 "tok" :=
    ⟨⟨⟨1, .prediction .btc .m15 .up, centMeta⟩, none, some ⟨some (windowOf "tok"), none⟩⟩,
      ⟨some (windowOf "tok"), none⟩, by decide, rfl, Or.inl rfl⟩
  have hlost : (run step new sharedTokenRun).findByPolymarketTokenId "tok" = none := by decide
  refine ⟨⟨trivial, fun _ => rfl, fun _ => rfl, trivial, trivial⟩, hholds, hlost, by decide, ?_⟩
  intro halways
  have hfound := (halways.last.1 "tok" 1).mpr hholds
  rw [hlost] at hfound
  cases hfound

/-- An ordinary rotation: distinct tokens, so every call keeps the index exact. -/
theorem indexExact_on_rotation :
    AllSteps step (RespectsOwner fun _ => 1) new
      [Call.insertPredictionPair .btc .m15 centMeta none,
        .bindPolymarketCurrent 1 (windowOf "w1"), .bindPolymarketNext 1 (windowOf "w2"),
        .promotePolymarketNext 1] ∧
    Always step IndexExact new
      [Call.insertPredictionPair .btc .m15 centMeta none,
        .bindPolymarketCurrent 1 (windowOf "w1"), .bindPolymarketNext 1 (windowOf "w2"),
        .promotePolymarketNext 1] := by
  have hcalls : AllSteps step (RespectsOwner fun _ => 1) new
      [Call.insertPredictionPair .btc .m15 centMeta none,
        .bindPolymarketCurrent 1 (windowOf "w1"), .bindPolymarketNext 1 (windowOf "w2"),
        .promotePolymarketNext 1] := ⟨trivial, fun _ => rfl, fun _ => rfl, trivial, trivial⟩
  refine ⟨hcalls, (indexExact_iff _ _ hcalls).mpr ⟨trivial, ?_, ?_, ?_, trivial⟩⟩
  · intro t ht
    have hnone : none = some t := ht
    cases hnone
  · intro t ht
    have hnone : none = some t := ht
    cases hnone
  · rfl

end InstrumentRegistry

end Mantis
