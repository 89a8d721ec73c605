import Sdrmm.Server.PhonesCache

/-!
# Pairing offers

The table of offers as long as no offer id is drawn twice: one offer is live at most, wrong codes are counted
up to the limit, which burns it, and an offer pairs one phone.
-/

namespace Sdrmm.Phones

variable {Secret Digest : Type} {before after : Shared Secret Digest}

/-- The id of the offer that an entry opened. -/
def Event.openedId : Event Secret → Option String
  | .opened offer => some offer.id
  | _ => none

/-- The entry is a wrong code for an offer. -/
def Event.guesses (id : String) : Event Secret → Bool
  | .guessed offer => offer = id
  | _ => false

def openedIds (log : List (Event Secret)) : List String := log.filterMap Event.openedId

def guesses (log : List (Event Secret)) (id : String) : ℕ := log.countP (Event.guesses id)

/-- No offer id was drawn twice. -/
def Distinct (log : List (Event Secret)) : Prop := (openedIds log).Nodup

instance (log : List (Event Secret)) : Decidable (Distinct log) :=
  inferInstanceAs (Decidable (openedIds log).Nodup)

structure OffersKept (shared : Shared Secret Digest) : Prop where
  ids : (shared.offers.map OfferRow.id).Nodup
  live : ∀ a ∈ shared.offers, ∀ b ∈ shared.offers, a.state = .live → b.state = .live → a.id = b.id
  opened : ∀ row ∈ shared.offers, ∃ offer place, At shared.log place (.opened offer) ∧ offer.id = row.id ∧
    offer.code = row.code ∧ offer.expiresAt = row.expiresAt
  failures : ∀ row ∈ shared.offers, guesses shared.log row.id = row.failures ∧
    (pairMaxFailures ≤ row.failures → row.state = .burned)
  guessed : ∀ id, guesses shared.log id ≤ pairMaxFailures ∧
    (id ∉ openedIds shared.log → guesses shared.log id = 0)
  issued : ∀ place issue, At shared.log place (.issued issue) → issue.offer.state = .live ∧
    issue.code = issue.offer.code ∧ issue.now < issue.offer.expiresAt ∧
    issue.offer.id ∈ openedIds shared.log ∧
    ∀ row ∈ shared.offers, row.id = issue.offer.id → row.state ≠ .live
  once : ∀ first second a b, At shared.log first (.issued a) → At shared.log second (.issued b) →
    a.offer.id = b.offer.id → first = second

variable {log : List (Event Secret)} {event : Event Secret}

theorem openedIds_append (log : List (Event Secret)) (event : Event Secret) :
    openedIds (log ++ [event]) = openedIds log ++ event.openedId.toList := by
  rw [openedIds, List.filterMap_append]
  cases hid : event.openedId with
  | none => simp [hid, openedIds]
  | some id => simp [hid, openedIds]

theorem guesses_append (log : List (Event Secret)) (event : Event Secret) (id : String) :
    guesses (log ++ [event]) id = guesses log id + if event.guesses id then 1 else 0 := by
  rw [guesses, List.countP_append, List.countP_singleton]
  rfl

theorem Distinct.of_append (hdistinct : Distinct (log ++ [event])) : Distinct log := by
  rw [Distinct, openedIds_append] at hdistinct
  exact hdistinct.of_append_left

theorem mem_openedIds {place : ℕ} {offer : OfferRow} (hplace : At log place (.opened offer)) :
    offer.id ∈ openedIds log :=
  List.mem_filterMap.mpr ⟨_, List.mem_of_getElem? hplace, rfl⟩

/-- A change to a row of the table that may end an offer, and does nothing else to it. -/
structure Ends (change : OfferRow → OfferRow) : Prop where
  id : ∀ row, (change row).id = row.id
  code : ∀ row, (change row).code = row.code
  expiresAt : ∀ row, (change row).expiresAt = row.expiresAt
  failures : ∀ row, (change row).failures = row.failures
  live : ∀ row, (change row).state = .live → row.state = .live
  burned : ∀ row, row.state = .burned → (change row).state = .burned

/-- Setting the state of live rows ends offers. -/
theorem ends_ite {cond : OfferRow → Prop} [DecidablePred cond] {state : OfferState}
    (hcond : ∀ row, cond row → row.state = .live) (hstate : state ≠ .live) :
    Ends fun row ↦ if cond row then { row with state } else row := by
  refine ⟨?_, ?_, ?_, ?_, ?_, ?_⟩
  all_goals intro row
  all_goals by_cases hrow : cond row
  all_goals simp only [hrow, if_true, if_false]
  · exact fun hlive ↦ absurd hlive hstate
  · exact id
  · intro hburned
    cases (hcond row hrow).symm.trans hburned
  · exact id

theorem OffersKept.map_ends (hkept : OffersKept before) {change : OfferRow → OfferRow} (hends : Ends change)
    (hoffers : after.offers = before.offers.map change) (hlog : after.log = before.log) :
    OffersKept after := by
  have hmem : ∀ {row}, row ∈ after.offers → ∃ old ∈ before.offers, change old = row := by
    intro row hrow
    rw [hoffers] at hrow
    exact List.mem_map.mp hrow
  refine ⟨?_, ?_, ?_, ?_, ?_, ?_, ?_⟩
  · have hsame : OfferRow.id ∘ change = OfferRow.id := funext hends.id
    rw [hoffers, List.map_map, hsame]
    exact hkept.ids
  · intro a ha b hb haLive hbLive
    obtain ⟨oldA, holdA, rfl⟩ := hmem ha
    obtain ⟨oldB, holdB, rfl⟩ := hmem hb
    rw [hends.id, hends.id]
    exact hkept.live oldA holdA oldB holdB (hends.live oldA haLive) (hends.live oldB hbLive)
  · intro row hrow
    obtain ⟨old, hold, rfl⟩ := hmem hrow
    rw [hlog, hends.id, hends.code, hends.expiresAt]
    exact hkept.opened old hold
  · intro row hrow
    obtain ⟨old, hold, rfl⟩ := hmem hrow
    obtain ⟨hguesses, hburned⟩ := hkept.failures old hold
    rw [hlog, hends.id, hends.failures]
    exact ⟨hguesses, fun hle ↦ hends.burned old (hburned hle)⟩
  · rw [hlog]
    exact hkept.guessed
  · rw [hlog]
    intro place issue hplace
    obtain ⟨hlive, hcode, hnow, hopened, hended⟩ := hkept.issued place issue hplace
    refine ⟨hlive, hcode, hnow, hopened, ?_⟩
    intro row hrow hid hrowLive
    obtain ⟨old, hold, rfl⟩ := hmem hrow
    rw [hends.id] at hid
    exact hended old hold hid (hends.live old hrowLive)
  · rw [hlog]
    exact hkept.once

/-- An entry that the table of offers has nothing to do with. -/
theorem OffersKept.note (hkept : OffersKept before) (hlog : after.log = before.log ++ [event])
    (hoffers : after.offers = before.offers) (hopened : ∀ offer, event ≠ .opened offer)
    (hguessed : ∀ id, event ≠ .guessed id) (hissued : ∀ issue, event ≠ .issued issue) :
    OffersKept after := by
  have hids : openedIds after.log = openedIds before.log := by
    have hnone : event.openedId = none := by
      cases event with
      | opened offer => exact absurd rfl (hopened offer)
      | _ => rfl
    rw [hlog, openedIds_append, hnone, Option.toList_none, List.append_nil]
  have hguesses : guesses after.log = guesses before.log := by
    funext id
    have hnone : event.guesses id = false := by
      cases event with
      | guessed other => exact absurd rfl (hguessed other)
      | _ => rfl
    rw [hlog, guesses_append, hnone]
    rfl
  have hold : ∀ {place issue}, At after.log place (.issued issue) → At before.log place (.issued issue) := by
    intro place issue hplace
    unfold At at hplace
    rw [hlog] at hplace
    exact (getElem?_append_singleton.mp hplace).resolve_right fun hnew ↦ hissued issue hnew.2
  refine ⟨?_, ?_, ?_, ?_, ?_, ?_, ?_⟩
  · rw [hoffers]
    exact hkept.ids
  · rw [hoffers]
    exact hkept.live
  · rw [hoffers]
    intro row hrow
    obtain ⟨offer, place, hplace, hsame⟩ := hkept.opened row hrow
    exact ⟨offer, place, getElem?_of_longer ⟨[event], hlog.symm⟩ hplace, hsame⟩
  · rw [hoffers, hguesses]
    exact hkept.failures
  · rw [hguesses, hids]
    exact hkept.guessed
  · rw [hoffers, hids]
    exact fun place issue hplace ↦ hkept.issued place issue (hold hplace)
  · exact fun first second a b hfirst hsecond ↦ hkept.once first second a b (hold hfirst) (hold hsecond)

/-- Rows may be dropped from the table. -/
theorem OffersKept.drop (hkept : OffersKept before) (hoffers : after.offers.Sublist before.offers)
    (hlog : after.log = before.log) : OffersKept after := by
  have hmem : ∀ {row}, row ∈ after.offers → row ∈ before.offers := fun hrow ↦ hoffers.subset hrow
  refine ⟨hkept.ids.sublist (hoffers.map _), ?_, ?_, ?_, ?_, ?_, ?_⟩
  · exact fun a ha b hb ↦ hkept.live a (hmem ha) b (hmem hb)
  all_goals rw [hlog]
  · exact fun row hrow ↦ hkept.opened row (hmem hrow)
  · exact fun row hrow ↦ hkept.failures row (hmem hrow)
  · exact hkept.guessed
  · intro place issue hplace
    obtain ⟨hlive, hcode, hnow, hopened, hended⟩ := hkept.issued place issue hplace
    exact ⟨hlive, hcode, hnow, hopened, fun row hrow ↦ hended row (hmem hrow)⟩
  · exact hkept.once

/-- A new offer, where no other is live. -/
theorem OffersKept.insert (hkept : OffersKept before) {offer : OfferRow}
    (hnone : ∀ row ∈ before.offers, row.state ≠ .live) (hfailures : offer.failures = 0)
    (hoffers : after.offers = before.offers ++ [offer]) (hlog : after.log = before.log ++ [.opened offer])
    (hdistinct : Distinct after.log) : OffersKept after := by
  have hlonger : before.log <+: after.log := ⟨[.opened offer], hlog.symm⟩
  have hids : openedIds after.log = openedIds before.log ++ [offer.id] := by
    rw [hlog, openedIds_append]
    rfl
  have hguesses : guesses after.log = guesses before.log := by
    funext id
    rw [hlog, guesses_append]
    rfl
  have hfresh : offer.id ∉ openedIds before.log := by
    rw [Distinct, hids] at hdistinct
    intro hold
    exact List.disjoint_of_nodup_append hdistinct hold (List.mem_singleton_self _)
  have hopenedOld : ∀ row ∈ before.offers, row.id ∈ openedIds before.log := by
    intro row hrow
    obtain ⟨first, place, hplace, hid, -⟩ := hkept.opened row hrow
    rw [← hid]
    exact mem_openedIds hplace
  have hcases : ∀ {row}, row ∈ after.offers → row ∈ before.offers ∨ row = offer := by
    intro row hrow
    rw [hoffers, List.mem_append, List.mem_singleton] at hrow
    exact hrow
  have hold : ∀ {place issue}, At after.log place (.issued issue) → At before.log place (.issued issue) := by
    intro place issue hplace
    unfold At at hplace
    rw [hlog] at hplace
    exact (getElem?_append_singleton.mp hplace).resolve_right fun hnew ↦ nomatch hnew.2
  refine ⟨?_, ?_, ?_, ?_, ?_, ?_, ?_⟩
  · rw [hoffers, List.map_append, List.map_singleton, List.nodup_append]
    refine ⟨hkept.ids, List.nodup_singleton _, ?_⟩
    intro id hid other hother heq
    obtain ⟨row, hrow, rfl⟩ := List.mem_map.mp hid
    rw [List.mem_singleton] at hother
    exact hfresh (hother ▸ heq ▸ hopenedOld row hrow)
  · intro a ha b hb haLive hbLive
    rcases hcases ha with haOld | rfl
    · exact absurd haLive (hnone a haOld)
    rcases hcases hb with hbOld | rfl
    · exact absurd hbLive (hnone b hbOld)
    · rfl
  · intro row hrow
    rcases hcases hrow with hrowOld | rfl
    · obtain ⟨first, place, hplace, hsame⟩ := hkept.opened row hrowOld
      exact ⟨first, place, getElem?_of_longer hlonger hplace, hsame⟩
    · refine ⟨row, before.log.length, ?_, rfl, rfl, rfl⟩
      unfold At
      rw [hlog]
      exact getElem?_append_singleton.mpr (Or.inr ⟨rfl, rfl⟩)
  · intro row hrow
    rw [hguesses]
    rcases hcases hrow with hrowOld | rfl
    · exact hkept.failures row hrowOld
    · rw [hfailures]
      exact ⟨(hkept.guessed row.id).2 hfresh, fun hle ↦ absurd hle (by decide)⟩
  · intro id
    rw [hguesses, hids, List.mem_append]
    exact ⟨(hkept.guessed id).1, fun hnot ↦ (hkept.guessed id).2 fun hmem ↦ hnot (Or.inl hmem)⟩
  · intro place issue hplace
    obtain ⟨hlive, hcode, hnow, hopened, hended⟩ := hkept.issued place issue (hold hplace)
    refine ⟨hlive, hcode, hnow, ?_, ?_⟩
    · rw [hids]
      exact List.mem_append_left _ hopened
    · intro row hrow hid
      rcases hcases hrow with hrowOld | rfl
      · exact hended row hrowOld hid
      · exact absurd (hid ▸ hopened) hfresh
  · exact fun first second a b hfirst hsecond ↦ hkept.once first second a b (hold hfirst) (hold hsecond)

theorem offersKept_openOffer (hkept : OffersKept before) {offer : OfferRow} (hfailures : offer.failures = 0)
    (hdistinct : Distinct (before.openOffer offer).2.log) : OffersKept (before.openOffer offer).2 := by
  unfold Shared.openOffer at hdistinct ⊢
  dsimp only at hdistinct ⊢
  split_ifs at hdistinct ⊢
  · exact hkept
  · have hends : Ends fun row ↦ if row.state = .live then { row with state := .superseded } else row :=
      ends_ite (fun _ hlive ↦ hlive) (by decide)
    have hsuperseded : OffersKept { before with offers := before.offers.map fun row ↦
        if row.state = .live then { row with state := .superseded } else row } := hkept.map_ends hends rfl rfl
    have hdropped : OffersKept { before with
        offers := (before.offers.map fun row ↦
          if row.state = .live then { row with state := .superseded } else row).filter fun row ↦
            !(row.createdAt < offer.createdAt - offerKeep) } :=
      hsuperseded.drop List.filter_sublist rfl
    refine hdropped.insert ?_ hfailures rfl rfl hdistinct
    intro row hrow
    obtain ⟨old, -, rfl⟩ := List.mem_map.mp (List.mem_filter.mp hrow).1
    split_ifs with hlive
    · exact fun hsame ↦ OfferState.noConfusion hsame
    · exact hlive

theorem offersKept_liveOffer (hkept : OffersKept before) (now : ℤ) :
    OffersKept (before.liveOffer now).2 := by
  have hends : Ends fun row : OfferRow ↦
      if row.state = .live ∧ row.expiresAt ≤ now then { row with state := .expired } else row :=
    ends_ite (fun _ hcond ↦ hcond.1) (by decide)
  exact hkept.map_ends hends rfl rfl

/-- The offer that is found has not expired. -/
theorem liveOffer_eq_some {now : ℤ} {row : OfferRow} (hrow : (before.liveOffer now).1 = some row) :
    row ∈ (before.liveOffer now).2.offers ∧ now < row.expiresAt := by
  have hmem : row ∈ (before.liveOffer now).2.offers := List.mem_of_find?_eq_some hrow
  have hlive : row.state = .live := of_decide_eq_true (List.find?_some hrow :)
  refine ⟨hmem, ?_⟩
  obtain ⟨old, -, hold⟩ := List.mem_map.mp hmem
  split_ifs at hold with hcond
  · rw [← hold] at hlive
    cases hlive
  · subst hold
    exact not_le.mp fun hle ↦ hcond ⟨hlive, hle⟩

theorem offersKept_cancelOffer (hkept : OffersKept before) : OffersKept before.cancelOffer.2 := by
  have hends : Ends fun row : OfferRow ↦ if row.state = .live then { row with state := .cancelled } else row :=
    ends_ite (fun _ hlive ↦ hlive) (by decide)
  exact hkept.map_ends hends rfl rfl

/-- An offer has one row. -/
theorem OffersKept.row_unique (hkept : OffersKept before) {a b : OfferRow} (ha : a ∈ before.offers)
    (hb : b ∈ before.offers) (hid : a.id = b.id) : a = b :=
  List.inj_on_of_nodup_map hkept.ids ha hb hid

/-- The live row of an offer, if the search for it finds one. -/
theorem find_live_eq_some {offers : List OfferRow} {id : String} {found : OfferRow}
    (hfound : offers.find? (fun row ↦ row.id = id ∧ row.state = .live) = some found) :
    found ∈ offers ∧ found.id = id ∧ found.state = .live := by
  have hcond := of_decide_eq_true (List.find?_some hfound :)
  exact ⟨List.mem_of_find?_eq_some hfound, hcond.1, hcond.2⟩

theorem offersKept_failOffer (hkept : OffersKept before) (id : String) :
    OffersKept (before.failOffer id).2 := by
  unfold Shared.failOffer
  split
  · exact hkept
  next found hfound =>
  obtain ⟨hmem, rfl, hlive⟩ := find_live_eq_some hfound
  have hbelow : found.failures < pairMaxFailures := by
    by_contra hle
    cases hlive.symm.trans ((hkept.failures found hmem).2 (not_lt.mp hle))
  have hguesses : ∀ other, guesses (before.log ++ [.guessed found.id]) other =
      guesses before.log other + if found.id = other then 1 else 0 := by
    intro other
    rw [guesses_append]
    simp only [Event.guesses, decide_eq_true_iff]
  have hopenedIds : openedIds (before.log ++ [.guessed found.id]) = openedIds before.log := by
    rw [openedIds_append]
    exact List.append_nil _
  have hfoundOpened : found.id ∈ openedIds before.log := by
    obtain ⟨offer, place, hplace, hid, -⟩ := hkept.opened found hmem
    rw [← hid]
    exact mem_openedIds hplace
  -- The row of the offer changes, and no other.
  have hrows : ∀ row ∈ ((before.offers.map fun row ↦
      if row.id = found.id ∧ row.state = .live then
        { row with failures := row.failures + 1,
                   state := if pairMaxFailures ≤ found.failures + 1 then .burned else .live }
      else row) : List OfferRow),
      row = { found with failures := found.failures + 1,
                         state := if pairMaxFailures ≤ found.failures + 1 then .burned else .live } ∨
        row ∈ before.offers ∧ row.id ≠ found.id := by
    intro row hrow
    obtain ⟨old, hold, rfl⟩ := List.mem_map.mp hrow
    by_cases hcond : old.id = found.id ∧ old.state = .live
    · rw [if_pos hcond, hkept.row_unique hold hmem hcond.1]
      exact Or.inl rfl
    · rw [if_neg hcond]
      refine Or.inr ⟨hold, fun hid ↦ hcond ⟨hid, ?_⟩⟩
      rw [hkept.row_unique hold hmem hid]
      exact hlive
  have hlonger : before.log <+: before.log ++ [.guessed found.id] := List.prefix_append _ _
  have hold : ∀ {place issue}, At (before.log ++ [.guessed found.id]) place (.issued issue) →
      At before.log place (.issued issue) :=
    fun hplace ↦ (getElem?_append_singleton.mp hplace).resolve_right fun hnew ↦ nomatch hnew.2
  refine ⟨?_, ?_, ?_, ?_, ?_, ?_, ?_⟩
  · have hids : (OfferRow.id ∘ fun row : OfferRow ↦ if row.id = found.id ∧ row.state = .live then
        { row with failures := row.failures + 1,
                   state := if pairMaxFailures ≤ found.failures + 1 then .burned else .live }
        else row) = OfferRow.id := by
      funext row
      by_cases hcond : row.id = found.id ∧ row.state = .live
      · rw [Function.comp_apply, if_pos hcond]
      · rw [Function.comp_apply, if_neg hcond]
    change ((before.offers.map _).map OfferRow.id).Nodup
    rw [List.map_map, hids]
    exact hkept.ids
  · intro a ha b hb haLive hbLive
    rcases hrows a ha with rfl | ⟨haOld, -⟩
    · rcases hrows b hb with rfl | ⟨hbOld, -⟩
      · rfl
      · exact hkept.live found hmem b hbOld hlive hbLive
    · rcases hrows b hb with rfl | ⟨hbOld, -⟩
      · exact hkept.live a haOld found hmem haLive hlive
      · exact hkept.live a haOld b hbOld haLive hbLive
  · intro row hrow
    rcases hrows row hrow with rfl | ⟨hrowOld, -⟩
    · obtain ⟨offer, place, hplace, hsame⟩ := hkept.opened found hmem
      exact ⟨offer, place, getElem?_of_longer hlonger hplace, hsame⟩
    · obtain ⟨offer, place, hplace, hsame⟩ := hkept.opened row hrowOld
      exact ⟨offer, place, getElem?_of_longer hlonger hplace, hsame⟩
  · intro row hrow
    change guesses (before.log ++ [.guessed found.id]) row.id = row.failures ∧ _
    rw [hguesses]
    rcases hrows row hrow with rfl | ⟨hrowOld, hne⟩
    · rw [if_pos rfl, (hkept.failures found hmem).1]
      exact ⟨rfl, fun hle ↦ if_pos hle⟩
    · rw [if_neg (Ne.symm hne)]
      exact hkept.failures row hrowOld
  · intro id
    change guesses (before.log ++ [.guessed found.id]) id ≤ _ ∧
      (id ∉ openedIds (before.log ++ [.guessed found.id]) → guesses (before.log ++ [.guessed found.id]) id = 0)
    rw [hguesses, hopenedIds]
    by_cases hid : found.id = id
    · rw [if_pos hid, ← hid, (hkept.failures found hmem).1]
      exact ⟨hbelow, fun hnot ↦ absurd hfoundOpened hnot⟩
    · rw [if_neg hid]
      exact hkept.guessed id
  · intro place issue hplace
    obtain ⟨hissueLive, hcode, hnow, hopened, hended⟩ := hkept.issued place issue (hold hplace)
    refine ⟨hissueLive, hcode, hnow, ?_, ?_⟩
    · change issue.offer.id ∈ openedIds (before.log ++ [.guessed found.id])
      rw [hopenedIds]
      exact hopened
    · intro row hrow hid
      rcases hrows row hrow with rfl | ⟨hrowOld, -⟩
      · exact absurd hlive (hended found hmem hid)
      · exact hended row hrowOld hid
  · exact fun first second a b hfirst hsecond ↦ hkept.once first second a b (hold hfirst) (hold hsecond)

/-- A write is entered for an offer that has ended with it. -/
theorem OffersKept.issue (hkept : OffersKept before) {issue : Issue Secret}
    (hoffers : after.offers = before.offers) (hlog : after.log = before.log ++ [.issued issue])
    (hissue : issue.offer.state = .live ∧ issue.code = issue.offer.code ∧
      issue.now < issue.offer.expiresAt ∧ issue.offer.id ∈ openedIds before.log ∧
      ∀ row ∈ before.offers, row.id = issue.offer.id → row.state ≠ .live)
    (hfirst : ∀ place other, At before.log place (.issued other) → other.offer.id ≠ issue.offer.id) :
    OffersKept after := by
  have hids : openedIds after.log = openedIds before.log := by
    rw [hlog, openedIds_append]
    exact List.append_nil _
  have hguesses : guesses after.log = guesses before.log := by
    funext id
    rw [hlog, guesses_append]
    rfl
  have hcases : ∀ {place other}, At after.log place (.issued other) →
      At before.log place (.issued other) ∨ place = before.log.length ∧ other = issue := by
    intro place other hplace
    unfold At at hplace
    rw [hlog] at hplace
    exact (getElem?_append_singleton.mp hplace).imp id fun hnew ↦ ⟨hnew.1, (Event.issued.inj hnew.2).symm⟩
  refine ⟨?_, ?_, ?_, ?_, ?_, ?_, ?_⟩
  · rw [hoffers]
    exact hkept.ids
  · rw [hoffers]
    exact hkept.live
  · rw [hoffers]
    intro row hrow
    obtain ⟨offer, place, hplace, hsame⟩ := hkept.opened row hrow
    exact ⟨offer, place, getElem?_of_longer ⟨[.issued issue], hlog.symm⟩ hplace, hsame⟩
  · rw [hoffers, hguesses]
    exact hkept.failures
  · rw [hguesses, hids]
    exact hkept.guessed
  · rw [hoffers, hids]
    intro place other hplace
    rcases hcases hplace with hold | ⟨-, rfl⟩
    · exact hkept.issued place other hold
    · exact hissue
  · intro first second a b hplaceA hplaceB hsame
    rcases hcases hplaceA with holdA | ⟨rfl, rfl⟩
    · rcases hcases hplaceB with holdB | ⟨rfl, rfl⟩
      · exact hkept.once first second a b holdA holdB hsame
      · exact absurd hsame (hfirst first a holdA)
    · rcases hcases hplaceB with holdB | ⟨rfl, -⟩
      · exact absurd hsame.symm (hfirst second b holdB)
      · rfl

/-- A pairing ends its offer, whose code and clock it has kept to. -/
theorem offersKept_pairWithOffer (hkept : OffersKept before) {id : String} {write : PairWrite Digest}
    {now : ℤ} {token : PhoneToken Secret} {code : String} {asked : ℤ}
    (hcode : ∀ row ∈ before.offers, row.id = id → code = row.code ∧ asked < row.expiresAt) :
    OffersKept (before.pairWithOffer id write now token code asked).2 := by
  unfold Shared.pairWithOffer
  split
  · exact hkept
  next found hfound =>
  split
  · exact hkept
  next row hrow =>
  obtain ⟨hmem, rfl, hlive⟩ := find_live_eq_some hfound
  have hends : Ends fun row : OfferRow ↦
      if row.id = found.id ∧ row.state = .live then { row with state := .used write.id } else row :=
    ends_ite (fun _ hcond ↦ hcond.2) (fun hsame ↦ OfferState.noConfusion hsame)
  have hended : OffersKept { before with
      offers := before.offers.map fun row ↦
        if row.id = found.id ∧ row.state = .live then { row with state := .used write.id } else row
      phones := Function.update before.phones write.id (some row) } :=
    hkept.map_ends hends rfl rfl
  refine hended.issue rfl rfl ?_ ?_
  · obtain ⟨hcodeSame, hnow⟩ := hcode found hmem rfl
    refine ⟨hlive, hcodeSame, hnow, ?_, ?_⟩
    · obtain ⟨offer, place, hplace, hid, -⟩ := hkept.opened found hmem
      rw [← hid]
      exact mem_openedIds hplace
    · intro row hrow hid hrowLive
      obtain ⟨old, -, hold⟩ := List.mem_map.mp hrow
      by_cases hcond : old.id = found.id ∧ old.state = .live
      · rw [if_pos hcond] at hold
        rw [← hold] at hrowLive
        cases hrowLive
      · rw [if_neg hcond] at hold
        rw [← hold] at hid hrowLive
        exact hcond ⟨hid, hrowLive⟩
  · intro place other hplace hsame
    exact (hkept.issued place other hplace).2.2.2.2 found hmem hsame.symm hlive

end Sdrmm.Phones
