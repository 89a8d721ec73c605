import Sdrmm.Server.PhonesCalls

/-!
# The pairing calls

Offers and pairings, and with them every call: whatever the schedule, the cache, the session table and the
table of offers are what they were at the start.
-/

namespace Sdrmm.Phones

variable {Secret Digest : Type} {hash : Secret → Digest} {before after : Shared Secret Digest} {thread : ℕ}

/-! ## Offers -/

/-- A step that changes the table of offers, and enters no more than that. -/
theorem Good.of_offers (hgood : Good hash before) (hlog : after.log = before.log)
    (hsame : SameStored before after) (hsessions : after.sessions = before.sessions)
    (hnext : before.next = after.next) (hoffers : OffersKept before → OffersKept after) : Good hash after := by
  refine hgood.same_log hlog hsame.phones ?_ ?_ hsessions hnext hoffers
  · rw [hsame.known]
    exact fun _ _ ↦ Or.inl
  · intro hfree
    rw [hsame.stored] at hfree
    unfold Agrees
    rw [hsame.known, hsame.phones]
    exact hgood.cache.agree hfree

theorem Good.entered (hgood : Good hash before) {event : Event Secret}
    (hevent : (∃ offer, event = .opened offer) ∨ ∃ id, event = .guessed id)
    (hlog : after.log = before.log ++ [event]) (hsame : SameStored before after)
    (hsessions : after.sessions = before.sessions) (hnext : after.next = before.next)
    (hoffers : Distinct after.log → OffersKept after) : Good hash after ∧ Moves thread before after := by
  have hcache : CacheKept hash after := by
    refine hgood.cache.note hlog ?_ ?_ ?_ ?_ hsame.phones hsame.known hsame.stored
    all_goals rcases hevent with ⟨offer, rfl⟩ | ⟨id, rfl⟩
    all_goals first | exact trivial | exact fun _ hfalse ↦ hfalse | exact nofun
  have hkept : SessionsKept hash after := by
    refine hgood.sessions.note hlog hnext.symm hsessions ?_ ?_ ?_
    all_goals rcases hevent with ⟨offer, rfl⟩ | ⟨id, rfl⟩
    all_goals exact nofun
  refine ⟨⟨hcache, hkept, hoffers⟩, ?_⟩
  refine Moves.note hlog hsame hsessions hnext ?_ ?_ ?_
  all_goals rcases hevent with ⟨offer, rfl⟩ | ⟨id, rfl⟩
  all_goals exact nofun

theorem follows_openOffer (offer : OfferRow) (hfailures : offer.failures = 0) :
    Follows hash thread (fun _ ↦ True) (Prog.access (Shared.openOffer · offer)) fun _ _ ↦ True := by
  apply Prog.Leads.access stable_true fun _ ↦ stable_true
  intro shared hgood _
  have hkept : Distinct (shared.openOffer offer).2.log → OffersKept (shared.openOffer offer).2 := by
    intro hdistinct
    refine offersKept_openOffer (hgood.offers ?_) hfailures hdistinct
    unfold Shared.openOffer at hdistinct
    dsimp only at hdistinct
    split_ifs at hdistinct
    · exact hdistinct
    · exact hdistinct.of_append
  rw [← and_assoc]
  refine ⟨?_, trivial⟩
  revert hkept
  unfold Shared.openOffer
  dsimp only
  split_ifs
  · exact fun _ ↦ ⟨hgood, Moves.refl⟩
  · exact fun hkept ↦ hgood.entered (Or.inl ⟨offer, rfl⟩) rfl ⟨rfl, rfl, rfl⟩ rfl rfl hkept

theorem follows_failOffer (id : String) :
    Follows hash thread (fun _ ↦ True) (Prog.access (Shared.failOffer · id)) fun _ _ ↦ True := by
  apply Prog.Leads.access stable_true fun _ ↦ stable_true
  intro shared hgood _
  have hkept : OffersKept shared → OffersKept (shared.failOffer id).2 :=
    fun hbefore ↦ offersKept_failOffer hbefore id
  rw [← and_assoc]
  refine ⟨?_, trivial⟩
  revert hkept
  unfold Shared.failOffer
  split
  · exact fun _ ↦ ⟨hgood, Moves.refl⟩
  · exact fun hkept ↦ hgood.entered (Or.inr ⟨id, rfl⟩) rfl ⟨rfl, rfl, rfl⟩ rfl rfl
      fun hdistinct ↦ hkept (hgood.offers hdistinct.of_append)

theorem follows_cancelOffer :
    Follows hash thread (fun _ ↦ True) (Prog.access Shared.cancelOffer) fun _ _ ↦ True := by
  apply Prog.Leads.access stable_true fun _ ↦ stable_true
  intro shared hgood _
  refine ⟨?_, Moves.quiet rfl (Or.inr ⟨rfl, rfl, rfl⟩) rfl rfl, trivial⟩
  exact hgood.of_offers rfl ⟨rfl, rfl, rfl⟩ rfl rfl offersKept_cancelOffer

theorem Distinct.of_longer {log longer : List (Event Secret)} (hdistinct : Distinct longer)
    (hlonger : log <+: longer) : Distinct log := by
  obtain ⟨rest, rfl⟩ := hlonger
  rw [Distinct, openedIds, List.filterMap_append] at hdistinct
  exact hdistinct.of_append_left

/-- The offer a request found is one that was opened, and has not expired. -/
def Offered (now : ℤ) (offer : OfferRow) (log : List (Event Secret)) : Prop :=
  now < offer.expiresAt ∧ (Distinct log → ∃ opened place, At log place (.opened opened) ∧
    opened.id = offer.id ∧ opened.code = offer.code ∧ opened.expiresAt = offer.expiresAt)

theorem lasting_offered (now : ℤ) (offer : OfferRow) :
    Lasting (@Offered Secret now offer) := by
  rintro log longer hlonger ⟨hnow, hopened⟩
  refine ⟨hnow, fun hdistinct ↦ ?_⟩
  obtain ⟨opened, place, hplace, hsame⟩ := hopened (hdistinct.of_longer hlonger)
  exact ⟨opened, place, getElem?_of_longer hlonger hplace, hsame⟩

theorem follows_liveOffer (now : ℤ) :
    Follows hash thread (fun _ ↦ True) (Prog.access (Shared.liveOffer · now)) fun live shared ↦
      ∀ offer, live = some offer → Offered now offer shared.log := by
  refine Prog.Leads.access stable_true (fun live ↦ ?_) ?_
  · intro other hne before after hbefore hafter hmoves hlive offer hoffer
    exact lasting_offered now offer _ _ hmoves.log (hlive offer hoffer)
  · intro shared hgood _
    refine ⟨?_, Moves.quiet rfl (Or.inr ⟨rfl, rfl, rfl⟩) rfl rfl, ?_⟩
    · exact hgood.of_offers rfl ⟨rfl, rfl, rfl⟩ rfl rfl fun hkept ↦ offersKept_liveOffer hkept now
    · intro offer hoffer
      obtain ⟨hmem, hnow⟩ := liveOffer_eq_some hoffer
      exact ⟨hnow, fun hdistinct ↦ (offersKept_liveOffer (hgood.offers hdistinct) now).opened offer hmem⟩

/-! ## The write of a pairing -/

def PairWrite.digest : PairWrite Digest → Digest
  | .new row => row.secretSha256
  | .rotate _ _ _ secretSha256 => secretSha256

theorem written_eq_some {now : ℤ} {write : PairWrite Digest} {row : PhoneRow Digest}
    (hrow : before.written now write = some row) : row.secretSha256 = write.digest := by
  unfold Shared.written at hrow
  cases write with
  | new other =>
    dsimp only at hrow
    split_ifs at hrow
    cases hrow
    rfl
  | rotate id name platform digest =>
    dsimp only at hrow
    split at hrow
    · cases hrow
      rfl
    · cases hrow
      rfl

/-- The state of a pairing after its write. -/
def Wrote (hash : Secret → Digest) (thread : ℕ) (id : String) (digest : Digest) (write : ℕ) :
    PairOutcome → Shared Secret Digest → Prop
  | .written, shared => ∃ row : PhoneRow Digest, row.secretSha256 = digest ∧
      (Owned thread {id} ∅ shared ∧ shared.phones id = some row) ∧ IssuedAt hash shared.log write id digest
  | _, shared => Owned thread ∅ ∅ shared

theorem stable_wrote (id : String) (digest : Digest) (write : ℕ) (outcome : PairOutcome) :
    Stable hash thread (Wrote hash thread id digest write outcome) := by
  cases outcome with
  | written =>
    rintro other hne before after hbefore hafter hmoves ⟨row, hdigest, hrow⟩
    exact ⟨row, hdigest, ((stable_row {id} ∅ id _).and (lasting_issuedAt write id digest).stable)
      other hne before after hbefore hafter hmoves hrow⟩
  | offerGone => exact stable_owned ∅ ∅
  | constraint => exact stable_owned ∅ ∅

/-- Offers that were opened under one id are one offer. -/
theorem Distinct.opened_unique {log : List (Event Secret)} (hdistinct : Distinct log) {a b : OfferRow}
    {first second : ℕ} (ha : At log first (.opened a)) (hb : At log second (.opened b)) (hid : a.id = b.id) :
    a = b := by
  induction log using List.reverseRecOn generalizing first second a b with
  | nil => cases ha
  | append_singleton log event ih =>
    have hfresh : ∀ {place : ℕ} {old : OfferRow} {new : OfferRow}, event = .opened new →
        At log place (.opened old) → old.id ≠ new.id := by
      rintro place old new rfl hold hsame
      rw [Distinct, openedIds_append] at hdistinct
      exact List.disjoint_of_nodup_append hdistinct (mem_openedIds hold)
        (hsame ▸ List.mem_singleton_self _)
    rcases getElem?_append_singleton.mp ha with haOld | ⟨-, rfl⟩
    · rcases getElem?_append_singleton.mp hb with hbOld | ⟨-, rfl⟩
      · exact ih hdistinct.of_append haOld hbOld hid
      · exact absurd hid (hfresh rfl haOld)
    · rcases getElem?_append_singleton.mp hb with hbOld | ⟨-, hsame⟩
      · exact absurd hid.symm (hfresh rfl hbOld)
      · exact Event.opened.inj hsame

/-- A row of the table goes by what its offer was opened with. -/
theorem OffersKept.offered (hkept : OffersKept before) (hdistinct : Distinct before.log) {now : ℤ}
    {offer : OfferRow} (hoffered : Offered now offer before.log) :
    ∀ row ∈ before.offers, row.id = offer.id → offer.code = row.code ∧ now < row.expiresAt := by
  intro row hrow hid
  obtain ⟨hnow, hopened⟩ := hoffered
  obtain ⟨opened, place, hplace, hopenedId, hcode, hexpires⟩ := hopened hdistinct
  obtain ⟨first, other, hother, hfirstId, hfirstCode, hfirstExpires⟩ := hkept.opened row hrow
  obtain rfl := hdistinct.opened_unique hplace hother (hopenedId.trans (hid.symm.trans hfirstId.symm))
  exact ⟨hcode.symm.trans hfirstCode, hexpires.symm.trans hfirstExpires ▸ hnow⟩

/-- The row is written and the offer used, or nothing is. -/
theorem follows_pairWithOffer {now asked : ℤ} {offer : OfferRow} (write : PairWrite Digest) (secret : Secret)
    (hdigest : write.digest = hash secret) :
    Follows hash thread
      (fun shared ↦ Owned thread ∅ ∅ shared ∧ Offered asked offer shared.log)
      (Prog.access fun shared ↦
        let result := shared.pairWithOffer offer.id write now ⟨write.id, secret⟩ offer.code asked
        ((shared.log.length, result.1), result.2))
      fun result ↦ Wrote hash thread write.id (hash secret) result.1 result.2 := by
  refine Prog.Leads.access ((stable_owned ∅ ∅).and (lasting_offered asked offer).stable)
    (fun result ↦ stable_wrote _ _ _ _) ?_
  rintro shared hgood ⟨howned, hoffered⟩
  obtain ⟨hagrees, hsettled⟩ := howned.done
  have hkept : Distinct shared.log → OffersKept
      (shared.pairWithOffer offer.id write now ⟨write.id, secret⟩ offer.code asked).2 := fun hdistinct ↦
    offersKept_pairWithOffer (hgood.offers hdistinct) ((hgood.offers hdistinct).offered hdistinct hoffered)
  revert hkept
  unfold Shared.pairWithOffer
  split
  · exact fun _ ↦ ⟨hgood, Moves.refl, howned⟩
  split
  · exact fun _ ↦ ⟨hgood, Moves.refl, howned⟩
  next found hfound _ row hrow =>
  intro hkept
  have hrowDigest : row.secretSha256 = hash secret := (written_eq_some hrow).trans hdigest
  refine ⟨⟨?_, ?_, fun hdistinct ↦ hkept (Distinct.of_append hdistinct)⟩, ?_,
    row, hrowDigest, ⟨⟨howned.stored, ?_, ?_⟩, Function.update_self ..⟩, ?_⟩
  · refine hgood.cache.write rfl (Or.inr ⟨_, row, rfl, rfl, rfl, hrowDigest.symm⟩) rfl rfl ?_ hsettled
    exact fun hfree ↦ nomatch howned.stored.symm.trans hfree
  · exact hgood.sessions.note rfl rfl rfl nofun nofun nofun
  · exact Moves.append rfl (Or.inl (May.of_held howned.stored)) (fun _ ↦ Stems.refl) rfl nofun nofun
  · intro phone hphone digest hknown
    obtain ⟨other, hother, hsame⟩ := hagrees phone digest hknown
    exact ⟨other, (Function.update_of_ne hphone ..).trans hother, hsame⟩
  · intro place _ phone hdeleted
    have hold : At shared.log place (.deleted phone) :=
      (getElem?_append_singleton.mp hdeleted).resolve_right fun hnew ↦ nomatch hnew.2
    obtain ⟨reached, hforgot⟩ := hsettled place phone hold
    exact ⟨reached, getElem?_of_longer (List.prefix_append _ _) hforgot⟩
  · exact ⟨_, getElem?_append_singleton.mpr (Or.inr ⟨rfl, rfl⟩), rfl, rfl⟩

theorem lasting_renewed (id : String) (write : ℕ) : Lasting fun log : List (Event Secret) ↦
    ∃ place, At log place (.renewed id write) :=
  fun _ _ hlonger ⟨place, hrenewed⟩ ↦ ⟨place, getElem?_of_longer hlonger hrenewed⟩

/-- The write reaches the cache. -/
theorem follows_renew (id : String) (digest : Digest) (write : ℕ) :
    Follows hash thread (Wrote hash thread id digest write .written)
      (change fun shared ↦ (shared.remember id digest).note (.renewed id write))
      fun _ shared ↦ Owned thread ∅ ∅ shared ∧ ∃ place, At shared.log place (.renewed id write) := by
  apply follows_change (stable_wrote id digest write .written)
    ((stable_owned ∅ ∅).and (lasting_renewed id write).stable)
  rintro shared hgood ⟨row, rfl, ⟨howned, hrow⟩, hissued⟩
  have hlast : At (shared.log ++ [.renewed id write]) shared.log.length (.renewed id write) :=
    getElem?_append_singleton.mpr (Or.inr ⟨rfl, rfl⟩)
  have hknown : ∀ phone found,
      ((shared.remember id row.secretSha256).note (.renewed id write)).known phone = some found →
        phone = id ∧ found = row.secretSha256 ∨ phone ≠ id ∧ shared.known phone = some found := by
    intro phone found hfound
    change (shared.remember id row.secretSha256).known phone = some found at hfound
    by_cases hsame : phone = id
    · subst hsame
      rw [Shared.remember_known_self] at hfound
      exact Or.inl ⟨rfl, (Option.some.inj hfound).symm⟩
    · rw [Shared.remember_known_of_ne _ hsame] at hfound
      exact Or.inr ⟨hsame, hfound⟩
  refine ⟨⟨?_, ?_, fun hdistinct ↦ ?_⟩, ?_, ⟨howned.stored, ?_, ?_⟩, shared.log.length, hlast⟩
  · refine hgood.cache.append rfl (fun _ hfalse ↦ hfalse) ⟨row.secretSha256, hissued⟩ rfl ?_ ?_
    · intro phone found hfound
      rcases hknown phone found hfound with ⟨rfl, rfl⟩ | ⟨hne, hold⟩
      · exact (hgood.cache.issuedSince hrow).renew hissued
      · refine (hgood.cache.known phone found hold).append nofun ?_
        rintro other ⟨⟩
        exact hne rfl
    · exact fun hfree ↦ nomatch howned.stored.symm.trans hfree
  · exact hgood.sessions.note rfl rfl rfl nofun nofun nofun
  · exact OffersKept.note (hgood.offers hdistinct.of_append) rfl rfl nofun nofun nofun
  · exact Moves.append rfl (Or.inl (May.of_held howned.stored)) (fun _ ↦ Stems.refl) rfl nofun nofun
  · intro phone _ found hfound
    rcases hknown phone found hfound with ⟨rfl, rfl⟩ | ⟨hne, hold⟩
    · exact ⟨row, hrow, rfl⟩
    · exact howned.agrees phone hne found hold
  · intro other hother phone hplace
    have hold : At shared.log other (.deleted phone) :=
      (getElem?_append_singleton.mp hplace).resolve_right fun hnew ↦ nomatch hnew.2
    obtain ⟨place, hforgot⟩ := howned.settled other hother phone hold
    exact ⟨place, getElem?_of_longer (List.prefix_append _ _) hforgot⟩

/-! ## Pairings -/

/-- The lock `pairing` guards nothing that is kept. -/
theorem Good.of_pairing (hgood : Good hash before) (thread : ℕ) (pairing : Option ℕ) :
    Good hash { before with pairing } ∧ Moves thread before { before with pairing } := by
  refine ⟨?_, Moves.quiet rfl (Or.inr ⟨rfl, rfl, rfl⟩) rfl rfl⟩
  exact hgood.of_offers rfl ⟨rfl, rfl, rfl⟩ rfl rfl fun hkept ↦ hkept.same rfl rfl

section Pair

variable (tries : ℕ)

theorem follows_pairWrite (request : PairRequest Secret) (drawn : Drawn Secret) (now : ℤ) (offer : OfferRow)
    (write : PairWrite Digest) (hcode : request.code = offer.code)
    (hdigest : write.digest = hash drawn.secret) :
    Follows hash thread (fun shared ↦ Offered now offer shared.log)
      (pairWrite hash thread tries request drawn now offer write) fun _ _ ↦ True := by
  unfold pairWrite
  rw [hcode]
  refine Prog.Leads.bind (follows_takeStored (lasting_offered now offer) tries) fun _ ↦ ?_
  refine Prog.Leads.bind (follows_pairWithOffer write drawn.secret hdigest) ?_
  have hgone : Follows hash thread (Owned thread ∅ ∅) (change Shared.leaveStored) fun _ _ ↦ True :=
    Prog.Leads.imp (follows_leaveStored (lasting_const True)) (fun _ _ howned ↦ ⟨howned, trivial⟩)
      fun _ _ _ hafter ↦ hafter
  rintro ⟨place, outcome⟩
  cases outcome with
  | offerGone => exact Prog.Leads.bind hgone fun _ ↦ Prog.Leads.pure _ stable_true fun _ _ _ ↦ trivial
  | constraint => exact Prog.Leads.bind hgone fun _ ↦ Prog.Leads.pure _ stable_true fun _ _ _ ↦ trivial
  | written =>
    refine Prog.Leads.bind (follows_renew write.id (hash drawn.secret) place) fun _ ↦ ?_
    refine Prog.Leads.bind (follows_leaveStored (lasting_renewed write.id place)) fun _ ↦ ?_
    refine Prog.Leads.bind (follows_read (Q := fun _ shared ↦ ∃ place', At shared.log place' (.renewed write.id place))
      (lasting_renewed write.id place).stable (fun _ ↦ (lasting_renewed write.id place).stable)
      fun _ _ hrenewed ↦ hrenewed) fun row ↦ ?_
    refine Prog.Leads.bind (follows_change (Q := fun _ ↦ True)
      (lasting_renewed write.id place).stable stable_true ?_) fun _ ↦ ?_
    · rintro shared hgood hrenewed
      refine ⟨?_, Moves.returned nofun nofun nofun, trivial⟩
      exact hgood.note (fun _ hfalse ↦ hfalse) (fun _ _ ↦ ⟨nofun, nofun⟩) hrenewed nofun nofun nofun
        (fun hfalse ↦ hfalse)
    · cases row with
      | none => exact Prog.Leads.pure _ stable_true fun _ _ _ ↦ trivial
      | some phone => exact Prog.Leads.pure _ stable_true fun _ _ _ ↦ trivial

variable [DecidableEq Digest]

theorem follows_rebound (token : Option (PhoneToken Secret)) :
    Follows hash thread (fun _ ↦ True) (rebound hash thread tries token) fun _ _ ↦ True := by
  cases token with
  | none => exact Prog.Leads.pure _ stable_true fun _ _ _ ↦ trivial
  | some token =>
    refine Prog.Leads.bind (follows_verify tries token) ?_
    rintro ⟨begun, accepted⟩
    exact Prog.Leads.pure _ (lasting_answered token begun accepted).stable fun _ _ _ ↦ trivial

theorem follows_attempt (request : PairRequest Secret) (name : String) (drawn : Drawn Secret) (now : ℤ) :
    Follows hash thread (fun _ ↦ True) (attempt hash thread tries request name drawn now) fun _ _ ↦ True := by
  unfold attempt
  refine Prog.Leads.bind (follows_liveOffer now) fun live ↦ ?_
  cases live with
  | none =>
    refine Prog.Leads.bind (Prog.Leads.imp (follows_read (Q := fun _ _ ↦ True) stable_true (fun _ ↦ stable_true)
      fun _ _ _ ↦ trivial) (fun _ _ _ ↦ trivial) fun _ _ _ hafter ↦ hafter) fun _ ↦ ?_
    exact Prog.Leads.pure _ stable_true fun _ _ _ ↦ trivial
  | some offer =>
    dsimp only
    split_ifs with hcode
    · have hframe : Follows hash thread (fun shared ↦ True ∧ Offered now offer shared.log)
          (rebound hash thread tries request.rebind) fun _ shared ↦ True ∧ Offered now offer shared.log :=
        Prog.Leads.frame (fun _ _ _ _ _ hmoves hoffered ↦ lasting_offered now offer _ _ hmoves.log hoffered)
          (follows_rebound tries request.rebind)
      refine Prog.Leads.bind (Prog.Leads.imp hframe (fun _ _ hlive ↦ ⟨trivial, hlive offer rfl⟩)
        fun _ _ _ hafter ↦ hafter.2) fun known ↦ ?_
      apply follows_pairWrite tries request drawn now offer _ hcode
      cases known with
      | none => rfl
      | some id => rfl
    · refine Prog.Leads.bind (Prog.Leads.imp (follows_failOffer offer.id) (fun _ _ _ ↦ trivial)
        fun _ _ _ hafter ↦ hafter) fun failure ↦ ?_
      exact Prog.Leads.pure _ stable_true fun _ _ _ ↦ trivial

theorem follows_pair (request : PairRequest Secret) (drawn : Drawn Secret) (now : ℤ) :
    Follows hash thread (fun _ ↦ True) (pair hash thread tries request drawn now) fun _ _ ↦ True := by
  unfold pair
  split_ifs with hprotocol
  · exact Prog.Leads.pure _ stable_true fun _ _ _ ↦ trivial
  split
  · exact Prog.Leads.pure _ stable_true fun _ _ _ ↦ trivial
  next name hname =>
  refine Prog.Leads.bind (Prog.Leads.acquire (R := fun _ ↦ True) stable_true stable_true
    (fun _ ↦ Moves.refl) ?_ tries) fun _ ↦ ?_
  · intro shared taken hgood _ htaken
    unfold Shared.takePairing at htaken
    split_ifs at htaken
    obtain rfl := Option.some.inj htaken
    obtain ⟨hafter, hmoves⟩ := hgood.of_pairing thread (some thread)
    exact ⟨hafter, hmoves, trivial⟩
  refine Prog.Leads.bind (follows_attempt tries request name drawn now) fun answer ↦ ?_
  refine Prog.Leads.bind (follows_change (Q := fun _ ↦ True) stable_true stable_true ?_) fun _ ↦ ?_
  · intro shared hgood _
    obtain ⟨hafter, hmoves⟩ := hgood.of_pairing thread none
    exact ⟨hafter, hmoves, trivial⟩
  · exact Prog.Leads.pure _ stable_true fun _ _ _ ↦ trivial

end Pair

theorem follows_createOffer (id code : String) (name : Option String) (now : ℤ) :
    Follows hash thread (fun _ ↦ True) (createOffer id code name now) fun _ _ ↦ True := by
  unfold createOffer
  split
  · exact Prog.Leads.pure _ stable_true fun _ _ _ ↦ trivial
  next name' _ =>
  refine Prog.Leads.bind (follows_openOffer (newOffer id code name' now) rfl) fun opened ↦ ?_
  exact Prog.Leads.pure _ stable_true fun _ _ _ ↦ trivial

theorem follows_offerStatus (now : ℤ) :
    Follows hash thread (fun _ ↦ True) (offerStatus now) fun _ _ ↦ True := by
  unfold offerStatus
  have hlive : Follows hash thread (fun _ ↦ True) (Prog.access (Shared.liveOffer · now)) fun _ _ ↦ True :=
    Prog.Leads.imp (follows_liveOffer now) (fun _ _ hbefore ↦ hbefore) fun _ _ _ _ ↦ trivial
  refine Prog.Leads.bind hlive fun _ ↦ ?_
  refine Prog.Leads.bind (follows_read (Q := fun _ _ ↦ True) stable_true (fun _ ↦ stable_true)
    fun _ _ _ ↦ trivial) fun _ ↦ ?_
  exact Prog.Leads.pure _ stable_true fun _ _ _ ↦ trivial

/-! ## Runs -/

section Runs

variable [DecidableEq Digest]

theorem follows_program (tries : ℕ) (call : Call Secret) :
    Follows hash thread (fun _ ↦ True) (call.program hash thread tries) fun _ _ ↦ True := by
  have hreturn : ∀ {α : Type} {program : Run Secret Digest α} {Q : α → Shared Secret Digest → Prop},
      Follows hash thread (fun _ ↦ True) program Q → (∀ value, Stable hash thread (Q value)) →
        Follows hash thread (fun _ ↦ True) (program.bind fun _ ↦ Prog.done ()) fun _ _ ↦ True :=
    fun hprogram hQ ↦ Prog.Leads.bind hprogram fun value ↦ Prog.Leads.pure () (hQ value) fun _ _ _ ↦ trivial
  have htrue : ∀ {α : Type} (value : α), Stable hash thread fun _ ↦ True := fun _ ↦ stable_true
  cases call with
  | verifyCached token =>
    exact hreturn (follows_verifyCached token) fun result ↦ (lasting_answered token _ _).stable
  | verify token => exact hreturn (follows_verify tries token) fun result ↦ (lasting_answered token _ _).stable
  | socket token leaves => exact follows_socket tries token leaves
  | remove phone => exact hreturn (follows_remove phone tries) htrue
  | createOffer id code name now => exact hreturn (follows_createOffer id code name now) htrue
  | cancelOffer => exact hreturn follows_cancelOffer htrue
  | offerStatus now => exact hreturn (follows_offerStatus now) htrue
  | pair request drawn now => exact hreturn (follows_pair tries request drawn now) htrue

variable {tries : ℕ} {calls : ℕ → List (Call Secret)} {start : Shared Secret Digest}

theorem Good.reached (hgood : Good hash start) (schedule : List ℕ) :
    Good hash (reached hash tries calls start schedule) := by
  have hserve : ∀ number, Follows hash number (fun _ ↦ True) (serve hash tries calls number) fun _ _ ↦ True :=
    fun number ↦ Prog.Leads.each stable_true (calls number) fun call _ ↦ follows_program tries call
  exact Prog.Leads.inv_run (P := fun _ _ ↦ True) hserve hgood (fun _ ↦ trivial) schedule

end Runs

end Sdrmm.Phones
