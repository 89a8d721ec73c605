import Sdrmm.Server.PhonesPairing

/-!
# What holds of the phones in every run

A run starts with an empty cache and no sessions, over tables that earlier processes left.  After any schedule
the cache agrees with the table, a token that was replaced or removed is not accepted, and an offer pairs one
phone at most.  The sessions of a removed phone are revoked, unless a pairing puts the phone back while one of
them is on its way in.
-/

namespace Sdrmm.Phones

variable {Secret Digest : Type} {hash : Secret → Digest}

/-- What earlier processes may have left in the log. -/
def Event.Stored : Event Secret → Prop
  | .opened _ => True
  | .guessed _ => True
  | .issued _ => True
  | _ => False

/-- A server that has just been started, with the entries of the log that account for its tables. -/
structure Started (hash : Secret → Digest) (start : Shared Secret Digest) : Prop where
  known : ∀ phone, start.known phone = none
  sessions : start.sessions = []
  stored : start.stored = none
  log : ∀ event ∈ start.log, event.Stored
  phones : ∀ phone row, start.phones phone = some row →
    ∃ place, IssuedAt hash start.log place phone row.secretSha256 ∧
      ∀ later, place < later → ∀ event, At start.log later event → ¬event.Writes phone
  gone : ∀ phone, start.phones phone = none → ∀ place digest, ¬IssuedAt hash start.log place phone digest
  offers : Distinct start.log → OffersKept start

theorem Started.good {start : Shared Secret Digest} (hstart : Started hash start) : Good hash start := by
  have hnone : ∀ {place : ℕ} {event : Event Secret}, At start.log place event → ¬event.Stored → False :=
    fun hplace hstored ↦ hstored (hstart.log _ (List.mem_of_getElem? hplace))
  refine ⟨⟨hstart.phones, ?_, ?_, ?_, ?_, ?_, ?_, ?_, ?_, ?_, ?_⟩, ⟨?_, ?_, ?_, ?_⟩, hstart.offers⟩
  · exact fun phone hgone place digest hissued ↦ absurd hissued (hstart.gone phone hgone place digest)
  · exact fun phone digest hknown ↦ nomatch (hstart.known phone).symm.trans hknown
  · intro _
    refine ⟨fun phone digest hknown ↦ (nomatch (hstart.known phone).symm.trans hknown), ?_⟩
    exact fun write phone hdeleted ↦ (hnone hdeleted fun hfalse ↦ hfalse).elim
  · exact fun _ _ _ hplace ↦ (hnone hplace fun hfalse ↦ hfalse).elim
  · exact fun _ _ _ hplace ↦ (hnone hplace fun hfalse ↦ hfalse).elim
  · exact fun _ _ _ _ _ hdeleted ↦ (hnone hdeleted fun hfalse ↦ hfalse).elim
  · exact fun _ _ _ hplace ↦ (hnone hplace fun hfalse ↦ hfalse).elim
  · exact fun _ _ _ hplace ↦ (hnone hplace fun hfalse ↦ hfalse).elim
  · exact fun _ _ _ hplace ↦ (hnone hplace fun hfalse ↦ hfalse).elim
  · exact fun _ _ _ hplace ↦ (hnone hplace fun hfalse ↦ hfalse).elim
  · rw [hstart.sessions]
    exact fun _ hsession ↦ nomatch hsession
  · exact fun _ _ _ hplace ↦ (hnone hplace fun hfalse ↦ hfalse).elim
  · exact fun _ _ _ hplace ↦ (hnone hplace fun hfalse ↦ hfalse).elim
  · exact fun _ _ _ _ _ _ _ hplace ↦ (hnone hplace fun hfalse ↦ hfalse).elim

/-! ## Tokens -/

/-- A token was issued by the entry at a place of the log. -/
def TokenAt (log : List (Event Secret)) (place : ℕ) (token : PhoneToken Secret) : Prop :=
  ∃ issue, At log place (.issued issue) ∧ issue.token = token

def issuedSecrets (log : List (Event Secret)) : Set Secret :=
  {secret | ∃ place token, TokenAt log place token ∧ token.secret = secret}

variable {log : List (Event Secret)} {token : PhoneToken Secret}

theorem TokenAt.issuedAt {place : ℕ} (htoken : TokenAt log place token) :
    IssuedAt hash log place token.phone (hash token.secret) := by
  obtain ⟨issue, hissue, rfl⟩ := htoken
  exact ⟨issue, hissue, rfl, rfl⟩

/-- Where secrets have their own digests, the digest of a token is issued with the token. -/
theorem TokenAt.of_issuedAt (hinjective : Set.InjOn hash (issuedSecrets log)) {place later : ℕ}
    (htoken : TokenAt log place token) (hissued : IssuedAt hash log later token.phone (hash token.secret)) :
    TokenAt log later token := by
  obtain ⟨issue, hissue, hphone, hdigest⟩ := hissued
  refine ⟨issue, hissue, ?_⟩
  have hsecret : issue.token.secret = token.secret :=
    hinjective ⟨later, issue.token, ⟨issue, hissue, rfl⟩, rfl⟩ ⟨place, token, htoken, rfl⟩ hdigest
  cases hfirst : issue.token
  cases token
  rw [hfirst] at hphone hsecret
  cases hphone
  cases hsecret
  rfl

/-- A removal or a rotation returned. -/
def Replaced (log : List (Event Secret)) (place : ℕ) (phone : String) (write : ℕ) : Prop :=
  At log place (.removed phone write) ∨ At log place (.absent phone write) ∨ At log place (.paired phone write)

/-- A digest that is accepted after a removal or a rotation returned was issued with it or later. -/
theorem CacheKept.issued_after {shared : Shared Secret Digest} (hkept : CacheKept hash shared)
    {place begun returned write : ℕ} {first : ℕ}
    (hverified : At shared.log place (.verified token begun true)) (hreturned : returned < begun)
    (hreplaced : Replaced shared.log returned token.phone write)
    (hfirst : IssuedAt hash shared.log first token.phone (hash token.secret)) :
    ∃ later, write ≤ later ∧ IssuedAt hash shared.log later token.phone (hash token.secret) := by
  obtain ⟨-, hsince⟩ := hkept.verified place token begun hverified
  rcases hreplaced with hremoved | habsent | hpaired
  · obtain ⟨earlier, hearlier, hforgot⟩ := hkept.removed returned token.phone write hremoved
    obtain ⟨later, hlater, hissued⟩ := (hsince earlier (hearlier.trans hreturned) write).1 hforgot
    exact ⟨later, hlater.le, hissued⟩
  · -- Each earlier write was forgotten, so that a later one follows it, until one comes after the removal.
    by_contra hnone
    push Not at hnone
    have hdeparted := hkept.absent returned token.phone write habsent
    have hclimb : ∀ count first, write - first ≤ count →
        ¬IssuedAt hash shared.log first token.phone (hash token.secret) := by
      intro count
      induction count with
      | zero =>
        intro first hle hissued
        exact hnone first (Nat.le_of_sub_eq_zero (Nat.le_zero.mp hle)) hissued
      | succ count ih =>
        intro first hle hissued
        by_cases hbefore : first < write
        · obtain ⟨other, hother, earlier, hearlier, hforgot⟩ := hdeparted.2 first hbefore _ hissued
          obtain ⟨later, hlater, hlaterIssued⟩ := (hsince earlier (hearlier.trans hreturned) other).1 hforgot
          exact ih later (by omega) hlaterIssued
        · exact hnone first (not_lt.mp hbefore) hissued
    exact hclimb _ first le_rfl hfirst
  · obtain ⟨earlier, hearlier, hrenewed⟩ := hkept.paired returned token.phone write hpaired
    exact (hsince earlier (hearlier.trans hreturned) write).2 hrenewed

/-! ## A server with one phone and an offer -/

namespace Example

def offer (id code : String) : OfferRow where
  id := id
  code := code
  name := none
  createdAt := 0
  expiresAt := 300
  failures := 0
  state := .live

def oldToken : PhoneToken ℕ := ⟨"p", 7⟩

/-- The phone was paired with the first offer, and the second is live. -/
def start : Shared ℕ ℕ where
  phones := fun id ↦ if id = "p" then some ⟨"p", "phone", .ios, 7, 0, none⟩ else none
  offers := [offer "second" "1234"]
  known := fun _ ↦ none
  sessions := []
  next := 0
  stored := none
  pairing := none
  log := [.opened (offer "first" "0000"),
    .issued { token := oldToken, offer := offer "first" "0000", code := "0000", now := 1 },
    .opened (offer "second" "1234")]

def drawn (phone : String) : Drawn ℕ := ⟨"id", "server", phone, 9, 2⟩

def request (rebind : Option (PhoneToken ℕ)) : PairRequest ℕ := ⟨apiProtocol, "1234", "phone", .ios, rebind⟩

/-- An entry of the log, if it is at a place. -/
theorem at_start {place : ℕ} {event : Event ℕ} (hplace : At start.log place event) :
    (place = 0 ∧ event = .opened (offer "first" "0000")) ∨
      (place = 1 ∧ event = .issued { token := oldToken, offer := offer "first" "0000", code := "0000", now := 1 }) ∨
      place = 2 ∧ event = .opened (offer "second" "1234") := by
  have hlt : place < 3 := lt_length_of_getElem? hplace
  interval_cases place
  all_goals cases hplace
  · exact Or.inl ⟨rfl, rfl⟩
  · exact Or.inr (Or.inl ⟨rfl, rfl⟩)
  · exact Or.inr (Or.inr ⟨rfl, rfl⟩)

theorem offersKept_start : OffersKept start := by
  have hissued : ∀ {place : ℕ} {issue : Issue ℕ}, At start.log place (.issued issue) → place = 1 ∧
      issue = { token := oldToken, offer := offer "first" "0000", code := "0000", now := 1 } := by
    intro place issue hplace
    rcases at_start hplace with ⟨-, hevent⟩ | ⟨hone, hevent⟩ | ⟨-, hevent⟩
    · cases hevent
    · exact ⟨hone, Event.issued.inj hevent⟩
    · cases hevent
  have hrow : ∀ {row}, row ∈ start.offers → row = offer "second" "1234" := List.mem_singleton.mp
  refine ⟨by decide, ?_, ?_, ?_, ?_, ?_, ?_⟩
  · intro a ha b hb _ _
    rw [hrow ha, hrow hb]
  · intro row hmem
    rw [hrow hmem]
    exact ⟨offer "second" "1234", 2, rfl, rfl, rfl, rfl⟩
  · intro row hmem
    rw [hrow hmem]
    exact ⟨rfl, fun hle ↦ absurd hle (by decide)⟩
  · exact fun id ↦ ⟨Nat.zero_le _, fun _ ↦ rfl⟩
  · intro place issue hplace
    obtain ⟨-, rfl⟩ := hissued hplace
    refine ⟨rfl, rfl, by decide, by decide, ?_⟩
    intro row hmem hid
    rw [hrow hmem] at hid
    exact absurd hid (by decide)
  · exact fun first second a b hfirst hsecond _ ↦ (hissued hfirst).1.trans (hissued hsecond).1.symm

theorem started : Started (id : ℕ → ℕ) start := by
  refine ⟨fun _ ↦ rfl, rfl, rfl, ?_, ?_, ?_, fun _ ↦ offersKept_start⟩
  · intro event hevent
    obtain ⟨place, hplace⟩ := List.mem_iff_getElem?.mp hevent
    rcases at_start hplace with ⟨-, rfl⟩ | ⟨-, rfl⟩ | ⟨-, rfl⟩
    all_goals trivial
  · intro phone row hrow
    dsimp only [start] at hrow
    split_ifs at hrow with hphone
    subst hphone
    cases hrow
    refine ⟨1, ⟨_, rfl, rfl, rfl⟩, ?_⟩
    intro later hlater event hevent
    rcases at_start hevent with ⟨rfl, -⟩ | ⟨rfl, -⟩ | ⟨-, rfl⟩
    · exact absurd hlater (by decide)
    · exact absurd hlater (by decide)
    · exact fun hfalse ↦ hfalse
  · rintro phone hgone place digest ⟨issue, hissue, hphone, -⟩
    rcases at_start hissue with ⟨-, hevent⟩ | ⟨-, hevent⟩ | ⟨-, hevent⟩
    · cases hevent
    · cases hevent
      rw [← hphone] at hgone
      cases hgone
    · cases hevent

/-- A socket, a pairing with the phone's old token, and a removal. -/
def calls : ℕ → List (Call ℕ)
  | 1 => [.socket oldToken false]
  | 2 => [.pair (request (some oldToken)) (drawn "q") 1]
  | 3 => [.remove "p"]
  | _ => []

/-- The pairing has its token checked, then the socket; the phone is removed, and put back by the pairing before
the socket joins. -/
def overtaking : List ℕ :=
  List.replicate 8 2 ++ 1 :: List.replicate 6 3 ++ List.replicate 9 2 ++ List.replicate 5 1

/-- The socket joins before the phone is removed. -/
def orderly : List ℕ := List.replicate 11 1 ++ List.replicate 6 3

theorem log_orderly : (Phones.reached id 1 calls start orderly).log = start.log ++
    [.verified oldToken 3 false, .verified oldToken 4 true, .joined oldToken 1 0 4 5 5, .deleted "p",
      .forgot "p" 6, .swept "p" 6, .removed "p" 6] := by
  decide

/-- The old token was issued once. -/
theorem log_overtaking : (Phones.reached id 1 calls start overtaking).log = start.log ++
    [.verified oldToken 3 true, .verified oldToken 4 true, .deleted "p", .forgot "p" 5, .swept "p" 5,
      .removed "p" 5, .issued { token := ⟨"p", 9⟩, offer := offer "second" "1234", code := "1234", now := 1 },
      .renewed "p" 9, .paired "p" 9, .joined oldToken 1 0 4 12 12] := by
  decide

end Example

/-! ## The runs -/

section Runs

variable [DecidableEq Digest] {start : Shared Secret Digest} {tries : ℕ} {calls : ℕ → List (Call Secret)}

theorem Started.reached (hstart : Started hash start) (schedule : List ℕ) :
    Good hash (Phones.reached hash tries calls start schedule) :=
  hstart.good.reached schedule

/-- While the lock `stored` is free, the cache has what the table has.  A token that is accepted by a
verification that began after a removal or a rotation of its phone returned was issued by it or later. -/
theorem cache_follows_table (hstart : Started hash start) (schedule : List ℕ) :
    let shared := Phones.reached hash tries calls start schedule
    (shared.stored = none → ∀ phone digest, shared.known phone = some digest →
      ∃ row, shared.phones phone = some row ∧ row.secretSha256 = digest) ∧
    (Set.InjOn hash (issuedSecrets shared.log) →
      ∀ token first, TokenAt shared.log first token →
        ∀ place begun, At shared.log place (.verified token begun true) →
          ∀ returned write, returned < begun → Replaced shared.log returned token.phone write →
            ∃ later, write ≤ later ∧ TokenAt shared.log later token) := by
  intro shared
  have hgood : Good hash shared := hstart.reached schedule
  refine ⟨fun hfree ↦ (hgood.cache.agree hfree).1, ?_⟩
  intro hinjective token first hfirst place begun hverified returned write hreturned hreplaced
  obtain ⟨later, hlater, hissued⟩ :=
    hgood.cache.issued_after hverified hreturned hreplaced hfirst.issuedAt
  exact ⟨later, hlater, hfirst.of_issuedAt hinjective hissued⟩

/-- A phone that was removed pairs again, and its new token is accepted. -/
theorem cache_follows_table_again :
    ∃ later, 3 ≤ later ∧ TokenAt (Phones.reached id 1
      (fun number ↦ if number = 1 then [.remove "p", .pair (Example.request none) (Example.drawn "p") 1,
        .verify ⟨"p", 9⟩] else []) Example.start (List.replicate 20 1)).log later ⟨"p", 9⟩ :=
  (cache_follows_table Example.started (List.replicate 20 1)).2 Function.injective_id.injOn ⟨"p", 9⟩ 7
    ⟨⟨⟨"p", 9⟩, Example.offer "second" "1234", "1234", 1⟩, by decide, rfl⟩ 10 10 (by decide)
    6 3 (by decide) (Or.inl (by decide))

/-- The sessions of removed phones are revoked once the removal and their joins have returned. -/
def RemovedEnd (shared : Shared Secret Digest) : Prop :=
  ∀ place token thread id begun entered checked,
    At shared.log place (.joined token thread id begun entered checked) →
      ∀ returned write, At shared.log returned (.removed token.phone write) →
        (∃ first, TokenAt shared.log first token) → (∀ later, write < later → ¬TokenAt shared.log later token) →
          ∀ session ∈ shared.sessions, session.thread = thread → session.id = id → session.revoked = true

/-- A phone was put back after its removal, between the time the token of a session was checked and the time the
session looked for the phone, and the session entered after the sweep of the removal. -/
def Overtaken (log : List (Event Secret)) : Prop :=
  ∃ place token thread id begun entered checked,
    At log place (.joined token thread id begun entered checked) ∧
      ∃ sweep write, At log sweep (.swept token.phone write) ∧ sweep < entered ∧
        ∃ back, begun ≤ back ∧ back < checked ∧ PutsBack log token.phone write back

theorem removedEnd_of_not_overtaken (hstart : Started hash start) (schedule : List ℕ)
    (hinjective : Set.InjOn hash (issuedSecrets (Phones.reached hash tries calls start schedule).log))
    (hovertaken : ¬Overtaken (Phones.reached hash tries calls start schedule).log) :
    RemovedEnd (Phones.reached hash tries calls start schedule) := by
  have hgood : Good hash (Phones.reached hash tries calls start schedule) := hstart.reached schedule
  revert hinjective hovertaken hgood
  generalize Phones.reached hash tries calls start schedule = shared
  intro hinjective hovertaken hgood place token thread id begun entered checked hjoined returned write hremoved hfirst hlast session
    hsession hthread hid
  by_contra hrevoked
  obtain ⟨sweep, -, hswept⟩ := hgood.sessions.removed returned token.phone write hremoved
  obtain ⟨-, hall⟩ := hgood.sessions.joined place token thread id begun entered checked hjoined
  obtain ⟨-, hunrevoked⟩ := hall session hsession hthread hid
  rcases hunrevoked (Bool.not_eq_true _ ▸ hrevoked) sweep write hswept with
    ⟨later, hlater, hissued⟩ | ⟨hentered, back, hbegun, hchecked, hback⟩
  · obtain ⟨first, htoken⟩ := hfirst
    exact hlast later hlater (htoken.of_issuedAt hinjective hissued)
  · exact hovertaken ⟨place, token, thread, id, begun, entered, checked, hjoined, sweep, write, hswept, hentered,
      back, hbegun, hchecked, hback⟩

theorem removedEnd_orderly : RemovedEnd (Phones.reached id 1 Example.calls Example.start Example.orderly) := by
  apply removedEnd_of_not_overtaken Example.started Example.orderly Function.injective_id.injOn
  rw [Example.log_orderly]
  rintro ⟨place, token, thread, session, begun, entered, checked, hjoined, sweep, write, hswept, hentered, -⟩
  have hplace : place < 10 := lt_length_of_getElem? hjoined
  have hsweep : sweep < 10 := lt_length_of_getElem? hswept
  interval_cases place
  all_goals cases hjoined
  interval_cases sweep
  all_goals cases hswept

/-- The session of a removed phone stays open: the pairing puts the phone back before the session looks for it. -/
theorem not_removedEnd_overtaking :
    ¬RemovedEnd (Phones.reached id 1 Example.calls Example.start Example.overtaking) := by
  intro hend
  have hrevoked := hend 12 Example.oldToken 1 0 4 12 12 (by decide) 8 5 (by decide)
    ⟨1, ⟨⟨Example.oldToken, Example.offer "first" "0000", "0000", 1⟩, by decide, rfl⟩⟩ ?_ ⟨1, 0, "p", false⟩ (by decide) rfl rfl
  · cases hrevoked
  rw [Example.log_overtaking]
  rintro later hlater ⟨issue, hissue, htoken⟩
  have hplace : later < 13 := lt_length_of_getElem? hissue
  interval_cases later
  all_goals cases hissue
  exact absurd htoken (by decide)

/-- One offer is live at most; wrong codes are counted up to the limit, which burns the offer; an offer writes
one phone at most, for its own code, found live and before it expires; and a request that is refused for its
protocol or its name takes no step. -/
theorem offers_pair_once (hstart : Started hash start) (schedule : List ℕ)
    (hdistinct : Distinct (Phones.reached hash tries calls start schedule).log) :
    let shared := Phones.reached hash tries calls start schedule
    (∀ a ∈ shared.offers, ∀ b ∈ shared.offers, a.state = .live → b.state = .live → a = b) ∧
    (∀ id, guesses shared.log id ≤ pairMaxFailures) ∧
    (∀ row ∈ shared.offers, row.failures = guesses shared.log row.id ∧
      (row.failures = pairMaxFailures → row.state = .burned)) ∧
    (∀ place issue, At shared.log place (.issued issue) → issue.offer.state = .live ∧
      issue.code = issue.offer.code ∧ issue.now < issue.offer.expiresAt ∧
      ∀ other second, At shared.log other (.issued second) → second.offer.id = issue.offer.id → other = place) ∧
    (∀ thread (request : PairRequest Secret) drawn now,
      request.protocol ≠ apiProtocol ∨ trimmedName request.name = none →
        ∃ error, pair hash thread tries request drawn now = Prog.done (.error error)) := by
  intro shared
  have hkept : OffersKept shared := (hstart.reached schedule).offers hdistinct
  refine ⟨?_, fun id ↦ (hkept.guessed id).1, ?_, ?_, ?_⟩
  · exact fun a ha b hb haLive hbLive ↦ hkept.row_unique ha hb (hkept.live a ha b hb haLive hbLive)
  · intro row hrow
    obtain ⟨hguesses, hburned⟩ := hkept.failures row hrow
    exact ⟨hguesses.symm, fun hlimit ↦ hburned hlimit.ge⟩
  · intro place issue hissue
    obtain ⟨hlive, hcode, hnow, -⟩ := hkept.issued place issue hissue
    exact ⟨hlive, hcode, hnow, fun other second hsecond hsame ↦ hkept.once other place second issue hsecond hissue hsame⟩
  · intro thread request drawn now hrefused
    unfold pair
    by_cases hprotocol : request.protocol ≠ apiProtocol
    · rw [if_pos hprotocol]
      exact ⟨_, rfl⟩
    · rw [if_neg hprotocol, hrefused.resolve_left hprotocol]
      exact ⟨_, rfl⟩

theorem offers_pair_once_overtaking :
    guesses (Phones.reached id 1 Example.calls Example.start Example.overtaking).log "second" ≤ pairMaxFailures :=
  (offers_pair_once Example.started Example.overtaking (by decide)).2.1 "second"

end Runs

end Sdrmm.Phones
