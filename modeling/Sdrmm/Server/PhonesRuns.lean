import Sdrmm.Server.PhonesOffers
import Sdrmm.Server.PhonesSessions

/-!
# Runs of the phone calls

Every call of every thread keeps what the cache, the session table and the table of offers are, in every order
of their steps.  `Moves` is what a step of a thread may do, and the assertions that a call goes by between its
steps are those that the others' moves leave as they are.
-/

namespace Sdrmm.Phones

variable {Secret Digest : Type} {hash : Secret → Digest} {before after : Shared Secret Digest}

/-- What holds after every step. -/
structure Good (hash : Secret → Digest) (shared : Shared Secret Digest) : Prop where
  cache : CacheKept hash shared
  sessions : SessionsKept hash shared
  offers : Distinct shared.log → OffersKept shared

/-! ## The moves of a thread -/

/-- What the lock `stored` guards is the same. -/
structure SameStored (before after : Shared Secret Digest) : Prop where
  stored : after.stored = before.stored
  phones : after.phones = before.phones
  known : after.known = before.known

theorem SameStored.rfl : SameStored before before := ⟨Eq.refl _, Eq.refl _, Eq.refl _⟩

/-- The lock `stored` is free or the thread's. -/
def May (thread : ℕ) (shared : Shared Secret Digest) : Prop :=
  ∀ other, shared.stored = some other → other = thread

theorem May.of_held {thread : ℕ} (hstored : before.stored = some thread) : May thread before :=
  fun _ hother ↦ Option.some.inj (hother.symm.trans hstored)

structure Moves (thread : ℕ) (before after : Shared Secret Digest) : Prop where
  log : before.log <+: after.log
  held : May thread before ∨ SameStored before after ∧
    ∀ write phone, At after.log write (.deleted phone) → At before.log write (.deleted phone)
  sessions : ∀ session ∈ after.sessions, Stems session before.sessions ∨ session.thread = thread
  next : before.next ≤ after.next
  swept : ∀ place phone write, At after.log place (.swept phone write) →
    At before.log place (.swept phone write) ∨
      ∀ session ∈ after.sessions, session.phone = phone → session.revoked = true
  joined : ∀ place token other id begun entered checked,
    At after.log place (.joined token other id begun entered checked) →
      At before.log place (.joined token other id begun entered checked) ∨ other = thread

variable {thread : ℕ}

theorem Moves.same_log (hlog : after.log = before.log) (hheld : May thread before ∨ SameStored before after)
    (hsessions : ∀ session ∈ after.sessions, Stems session before.sessions ∨ session.thread = thread)
    (hnext : before.next ≤ after.next) : Moves thread before after := by
  refine ⟨?_, ?_, hsessions, hnext, ?_, ?_⟩
  all_goals rw [hlog]
  · exact hheld.imp id fun hsame ↦ ⟨hsame, fun _ _ ↦ id⟩
  · exact fun _ _ _ ↦ Or.inl
  · exact fun _ _ _ _ _ _ _ ↦ Or.inl

/-- A step that leaves the log and the sessions. -/
theorem Moves.quiet (hlog : after.log = before.log) (hheld : May thread before ∨ SameStored before after)
    (hsessions : after.sessions = before.sessions) (hnext : after.next = before.next) :
    Moves thread before after := by
  refine Moves.same_log hlog hheld ?_ hnext.ge
  intro session hsession
  rw [hsessions] at hsession
  exact Or.inl (Stems.refl hsession)

theorem Moves.refl : Moves thread before before := Moves.quiet rfl (Or.inr SameStored.rfl) rfl rfl

/-- A step that adds an entry to the log. -/
theorem Moves.append {event : Event Secret} (hlog : after.log = before.log ++ [event])
    (hheld : May thread before ∨ SameStored before after ∧ ∀ phone, event ≠ .deleted phone)
    (hsessions : ∀ session ∈ after.sessions, Stems session before.sessions) (hnext : after.next = before.next)
    (hswept : ∀ phone write, event = .swept phone write →
      ∀ session ∈ after.sessions, session.phone = phone → session.revoked = true)
    (hjoined : ∀ token other id begun entered checked,
      event = .joined token other id begun entered checked → other = thread) : Moves thread before after := by
  have hcases : ∀ {place : ℕ} {found : Event Secret}, At after.log place found →
      At before.log place found ∨ event = found := by
    intro place found hfound
    unfold At at hfound
    rw [hlog] at hfound
    exact (getElem?_append_singleton.mp hfound).imp id And.right
  refine ⟨⟨[event], hlog.symm⟩, ?_, fun session hsession ↦ Or.inl (hsessions session hsession), hnext.ge, ?_, ?_⟩
  · refine hheld.imp id fun hsame ↦ ⟨hsame.1, ?_⟩
    exact fun write phone hplace ↦ (hcases hplace).resolve_right (hsame.2 phone)
  · exact fun place phone write hplace ↦ (hcases hplace).imp (fun hold ↦ hold) fun hevent ↦ hswept phone write hevent
  · exact fun place token other id begun entered checked hplace ↦
      (hcases hplace).imp (fun hold ↦ hold) fun hevent ↦ hjoined token other id begun entered checked hevent

/-- An entry for a step that changes neither what the lock guards nor the sessions. -/
theorem Moves.note {event : Event Secret} (hlog : after.log = before.log ++ [event])
    (hsame : SameStored before after) (hsessions : after.sessions = before.sessions)
    (hnext : after.next = before.next) (hdeleted : ∀ phone, event ≠ .deleted phone)
    (hswept : ∀ phone write, event ≠ .swept phone write)
    (hjoined : ∀ token other id begun entered checked,
      event = .joined token other id begun entered checked → other = thread) : Moves thread before after := by
  refine Moves.append hlog (Or.inr ⟨hsame, hdeleted⟩) ?_ hnext ?_ hjoined
  · intro session hsession
    rw [hsessions] at hsession
    exact Stems.refl hsession
  · exact fun phone write hevent ↦ absurd hevent (hswept phone write)

/-! ## Assertions that the others leave as they are -/

/-- A part of a call of a thread, from one assertion to another. -/
abbrev Follows {α : Type} (hash : Secret → Digest) (thread : ℕ) (P : Shared Secret Digest → Prop)
    (program : Run Secret Digest α) (Q : α → Shared Secret Digest → Prop) : Prop :=
  Prog.Leads (Good hash) Moves thread P program Q

abbrev Stable (hash : Secret → Digest) (thread : ℕ) (P : Shared Secret Digest → Prop) : Prop :=
  Prog.Holds (Good hash) Moves thread P

theorem stable_true : Stable hash thread fun _ ↦ True := Prog.holds_const True

/-- The lock is the thread's.  The cache agrees with the table but for the phones in `stale`, and the removals
have reached the cache but for those in `pending`. -/
structure Owned (thread : ℕ) (stale : Set String) (pending : Set ℕ) (shared : Shared Secret Digest) : Prop where
  stored : shared.stored = some thread
  agrees : ∀ phone ∉ stale, ∀ digest, shared.known phone = some digest →
    ∃ row, shared.phones phone = some row ∧ row.secretSha256 = digest
  settled : ∀ write ∉ pending, ∀ phone, At shared.log write (.deleted phone) →
    ∃ place, At shared.log place (.forgot phone write)

theorem Owned.done (howned : Owned thread ∅ ∅ before) : Agrees before ∧ Settled before.log :=
  ⟨fun phone digest ↦ howned.agrees phone (Set.notMem_empty phone) digest,
    fun write phone ↦ howned.settled write (Set.notMem_empty write) phone⟩

theorem Owned.same {stale : Set String} {pending : Set ℕ} {other : ℕ}
    (howned : Owned thread stale pending before) (hne : other ≠ thread) (hmoves : Moves other before after) :
    SameStored before after ∧
      ∀ write phone, At after.log write (.deleted phone) → At before.log write (.deleted phone) :=
  hmoves.held.resolve_left fun hmay ↦ hne (hmay thread howned.stored).symm

theorem stable_owned (stale : Set String) (pending : Set ℕ) :
    Stable hash thread (Owned thread stale pending) := by
  intro other hne before after _ _ hmoves howned
  obtain ⟨hsame, hdeleted⟩ := howned.same hne hmoves
  refine ⟨hsame.stored.trans howned.stored, ?_, ?_⟩
  · rw [hsame.known, hsame.phones]
    exact howned.agrees
  · intro write hwrite phone hplace
    obtain ⟨place, hforgot⟩ := howned.settled write hwrite phone (hdeleted write phone hplace)
    exact ⟨place, getElem?_of_longer hmoves.log hforgot⟩

/-- While the thread has the lock, a row stays what it is. -/
theorem stable_row (stale : Set String) (pending : Set ℕ) (phone : String)
    (row : Option (PhoneRow Digest)) : Stable hash thread fun shared ↦
      Owned thread stale pending shared ∧ shared.phones phone = row := by
  intro other hne before after hbefore hafter hmoves ⟨howned, hrow⟩
  refine ⟨stable_owned stale pending other hne before after hbefore hafter hmoves howned, ?_⟩
  rw [(howned.same hne hmoves).1.phones]
  exact hrow

/-- What an assertion says of the log stays true as the log grows. -/
def Lasting (P : List (Event Secret) → Prop) : Prop := ∀ log longer, log <+: longer → P log → P longer

theorem Lasting.stable {P : List (Event Secret) → Prop} (hP : Lasting P) :
    Stable hash thread fun shared ↦ P shared.log :=
  fun _ _ _ _ _ _ hmoves hbefore ↦ hP _ _ hmoves.log hbefore

theorem Lasting.and {P Q : List (Event Secret) → Prop} (hP : Lasting P) (hQ : Lasting Q) :
    Lasting fun log ↦ P log ∧ Q log :=
  fun log longer hlonger hboth ↦ ⟨hP log longer hlonger hboth.1, hQ log longer hlonger hboth.2⟩

theorem lasting_const (fact : Prop) : Lasting fun _ : List (Event Secret) ↦ fact := fun _ _ _ ↦ id

theorem lasting_at (place : ℕ) (event : Event Secret) : Lasting fun log ↦ At log place event :=
  fun _ _ hlonger hplace ↦ getElem?_of_longer hlonger hplace

theorem lasting_issuedAt (place : ℕ) (phone : String) (digest : Digest) :
    Lasting fun log ↦ IssuedAt hash log place phone digest :=
  fun _ _ hlonger hissued ↦ hissued.mono hlonger

/-- A call that began when the log had `begun` entries. -/
theorem lasting_begun (begun : ℕ) : Lasting fun log : List (Event Secret) ↦ begun ≤ log.length :=
  fun _ _ hlonger hle ↦ hle.trans hlonger.length_le

/-- A digest that such a call found. -/
def Found (hash : Secret → Digest) (begun : ℕ) (phone : String) (digest : Digest)
    (log : List (Event Secret)) : Prop :=
  begun ≤ log.length ∧ IssuedSince hash log begun phone digest

theorem lasting_found (begun : ℕ) (phone : String) (digest : Digest) :
    Lasting (Found hash begun phone digest) :=
  fun _ _ hlonger hfound ↦ ⟨hfound.1.trans hlonger.length_le, hfound.2.mono hfound.1 hlonger⟩

/-! ## Steps -/

theorem follows_read {α : Type} {f : Shared Secret Digest → α} {P : Shared Secret Digest → Prop}
    {Q : α → Shared Secret Digest → Prop} (hP : Stable hash thread P) (hQ : ∀ value, Stable hash thread (Q value))
    (hread : ∀ shared, Good hash shared → P shared → Q (f shared) shared) :
    Follows hash thread P (read f) Q :=
  Prog.Leads.access hP hQ fun shared hgood hbefore ↦ ⟨hgood, Moves.refl, hread shared hgood hbefore⟩

theorem follows_change {f : Shared Secret Digest → Shared Secret Digest} {P Q : Shared Secret Digest → Prop}
    (hP : Stable hash thread P) (hQ : Stable hash thread Q)
    (hchange : ∀ shared, Good hash shared → P shared →
      Good hash (f shared) ∧ Moves thread shared (f shared) ∧ Q (f shared)) :
    Follows hash thread P (change f) fun _ ↦ Q :=
  Prog.Leads.access hP (fun _ ↦ hQ) hchange

/-- A step that adds nothing to the log and leaves the sessions. -/
theorem Good.same_log (hgood : Good hash before) (hlog : after.log = before.log)
    (hphones : after.phones = before.phones)
    (hknown : ∀ phone digest, after.known phone = some digest →
      before.known phone = some digest ∨ ∃ row, before.phones phone = some row ∧ row.secretSha256 = digest)
    (hagree : after.stored = none → Agrees after ∧ Settled before.log)
    (hsessions : after.sessions = before.sessions) (hnext : before.next = after.next)
    (hoffers : OffersKept before → OffersKept after) : Good hash after := by
  refine ⟨hgood.cache.same_log hlog hphones hknown hagree, ?_, ?_⟩
  · apply hgood.sessions.same_log hlog hnext.le
    intro session hsession
    rw [hsessions] at hsession
    exact Or.inl (Stems.refl hsession)
  · rw [hlog]
    exact fun hdistinct ↦ hoffers (hgood.offers hdistinct)

theorem OffersKept.same (hkept : OffersKept before) (hoffers : after.offers = before.offers)
    (hlog : after.log = before.log) : OffersKept after :=
  hkept.drop (hoffers ▸ List.Sublist.refl _) hlog

variable {P : List (Event Secret) → Prop}

theorem follows_takeStored (hP : Lasting P) (tries : ℕ) :
    Follows hash thread (fun shared ↦ P shared.log) (Prog.acquire (Shared.takeStored · thread) tries)
      fun _ shared ↦ Owned thread ∅ ∅ shared ∧ P shared.log := by
  apply Prog.Leads.acquire hP.stable ((stable_owned ∅ ∅).and hP.stable) fun _ ↦ Moves.refl
  intro shared taken hgood hbefore htaken
  unfold Shared.takeStored at htaken
  split_ifs at htaken with hfree
  obtain rfl := Option.some.inj htaken
  rw [Option.isNone_iff_eq_none] at hfree
  obtain ⟨hagrees, hsettled⟩ := hgood.cache.agree hfree
  refine ⟨?_, ?_, ⟨rfl, fun phone _ digest ↦ hagrees phone digest, fun write _ phone ↦ hsettled write phone⟩, hbefore⟩
  · exact hgood.same_log rfl rfl (fun _ _ ↦ Or.inl) (fun hnone ↦ nomatch (hnone : some thread = none)) rfl rfl
      fun hkept ↦ hkept.same rfl rfl
  · exact Moves.quiet rfl (Or.inl fun other hother ↦ nomatch hfree.symm.trans hother) rfl rfl

theorem follows_leaveStored (hP : Lasting P) :
    Follows hash thread (fun shared ↦ Owned thread ∅ ∅ shared ∧ P shared.log) (change Shared.leaveStored)
      fun _ shared ↦ P shared.log := by
  apply follows_change ((stable_owned ∅ ∅).and hP.stable) hP.stable
  rintro shared hgood ⟨howned, hbefore⟩
  refine ⟨?_, ?_, hbefore⟩
  · exact hgood.same_log rfl rfl (fun _ _ ↦ Or.inl) (fun _ ↦ howned.done) rfl rfl fun hkept ↦ hkept.same rfl rfl
  · exact Moves.quiet rfl (Or.inl (May.of_held howned.stored)) rfl rfl

/-- An entry of the table of offers. -/
def Event.Offers : Event Secret → Prop
  | .opened _ => True
  | .guessed _ => True
  | .issued _ => True
  | _ => False

/-- An entry that says that a call returned, or what it answered. -/
theorem Good.note (hgood : Good hash before) {event : Event Secret} (hwrites : ∀ phone, ¬event.Writes phone)
    (hcache : ∀ phone write, event ≠ .forgot phone write ∧ event ≠ .renewed phone write)
    (hsound : event.Sound hash before.log) (hswept : ∀ phone write, event ≠ .swept phone write)
    (hremoved : ∀ phone write, event = .removed phone write →
      ∃ earlier, At before.log earlier (.swept phone write))
    (hjoined : ∀ token thread id begun entered checked,
      event = .joined token thread id begun entered checked → id < before.next ∧
        ∀ session ∈ before.sessions, session.thread = thread → session.id = id →
          session.phone = token.phone ∧ (session.revoked = false →
            ∀ sweep write, At before.log sweep (.swept token.phone write) →
              Outlives hash before.log token begun entered checked sweep write))
    (hoffers : ¬event.Offers) : Good hash (before.note event) := by
  refine ⟨?_, ?_, fun hdistinct ↦ ?_⟩
  · exact hgood.cache.note rfl hwrites (fun phone write ↦ (hcache phone write).1)
      (fun phone write ↦ (hcache phone write).2) hsound rfl rfl rfl
  · refine hgood.sessions.append rfl rfl (fun session hsession ↦ Stems.refl hsession) ?_ hremoved hjoined
    exact fun phone write hevent ↦ absurd hevent (hswept phone write)
  · refine OffersKept.note (hgood.offers hdistinct.of_append) rfl rfl ?_ ?_ ?_
    · exact fun offer hevent ↦ hoffers (hevent ▸ trivial)
    · exact fun id hevent ↦ hoffers (hevent ▸ trivial)
    · exact fun issue hevent ↦ hoffers (hevent ▸ trivial)

theorem Moves.returned {event : Event Secret} (hdeleted : ∀ phone, event ≠ .deleted phone)
    (hswept : ∀ phone write, event ≠ .swept phone write)
    (hjoined : ∀ token other id begun entered checked,
      event = .joined token other id begun entered checked → other = thread) :
    Moves thread before (before.note event) :=
  Moves.note rfl ⟨rfl, rfl, rfl⟩ rfl rfl hdeleted hswept hjoined

/-- The cache takes the digest of a row in the table. -/
theorem follows_remember (hP : Lasting P) (row : PhoneRow Digest) (id : String) :
    Follows hash thread
      (fun shared ↦ (Owned thread ∅ ∅ shared ∧ shared.phones id = some row) ∧ P shared.log)
      (change (Shared.remember · id row.secretSha256))
      fun _ shared ↦ Owned thread ∅ ∅ shared ∧ P shared.log := by
  apply follows_change ((stable_row ∅ ∅ id _).and hP.stable) ((stable_owned ∅ ∅).and hP.stable)
  rintro shared hgood ⟨⟨howned, hrow⟩, hbefore⟩
  have hknown : ∀ phone digest, (shared.remember id row.secretSha256).known phone = some digest →
      shared.known phone = some digest ∨ ∃ found, shared.phones phone = some found ∧ found.secretSha256 = digest := by
    intro phone digest hdigest
    by_cases hsame : phone = id
    · subst hsame
      rw [Shared.remember_known_self] at hdigest
      exact Or.inr ⟨row, hrow, Option.some.inj hdigest⟩
    · rw [Shared.remember_known_of_ne _ hsame] at hdigest
      exact Or.inl hdigest
  have hagrees : Agrees (shared.remember id row.secretSha256) := by
    intro phone digest hdigest
    rcases hknown phone digest hdigest with hold | hfound
    · exact howned.done.1 phone digest hold
    · exact hfound
  refine ⟨?_, ?_, ⟨howned.stored, fun phone _ ↦ hagrees phone, howned.settled⟩, hbefore⟩
  · exact hgood.same_log rfl rfl hknown (fun _ ↦ ⟨hagrees, howned.done.2⟩) rfl rfl fun hkept ↦ hkept.same rfl rfl
  · exact Moves.quiet rfl (Or.inl (May.of_held howned.stored)) rfl rfl

/-! ## Verifications -/

/-- What a call that began when the log had `begun` entries found for a phone, if anything. -/
def Looked (hash : Secret → Digest) (phone : String) (result : ℕ × Option Digest)
    (log : List (Event Secret)) : Prop :=
  result.1 ≤ log.length ∧ ∀ digest, result.2 = some digest → IssuedSince hash log result.1 phone digest

theorem lasting_looked (phone : String) (result : ℕ × Option Digest) :
    Lasting (Looked hash phone result) :=
  fun _ _ hlonger hlooked ↦ ⟨hlooked.1.trans hlonger.length_le,
    fun digest hdigest ↦ (hlooked.2 digest hdigest).mono hlooked.1 hlonger⟩

theorem follows_secretOf (tries : ℕ) (id : String) :
    Follows hash thread (fun _ ↦ True) (secretOf thread tries id)
      fun result shared ↦ Looked hash id result shared.log := by
  unfold secretOf
  refine Prog.Leads.bind (follows_read (Q := fun result shared ↦ Looked hash id result shared.log)
    stable_true (fun result ↦ (lasting_looked id result).stable) ?_) ?_
  · intro shared hgood _
    exact ⟨le_rfl, fun digest hdigest ↦ hgood.cache.known id digest hdigest⟩
  rintro ⟨begun, cached⟩
  cases cached with
  | some secret => exact Prog.Leads.pure _ (lasting_looked id _).stable fun _ _ hlooked ↦ hlooked
  | none =>
    dsimp only
    refine Prog.Leads.bind (Prog.Leads.imp (follows_takeStored (lasting_begun begun) tries)
      (fun _ _ hlooked ↦ hlooked.1) fun _ _ _ hafter ↦ hafter) fun _ ↦ ?_
    refine Prog.Leads.bind (follows_read (Q := fun row shared ↦
      (Owned thread ∅ ∅ shared ∧ shared.phones id = row) ∧ begun ≤ shared.log.length)
      ((stable_owned ∅ ∅).and (lasting_begun begun).stable)
      (fun row ↦ (stable_row ∅ ∅ id row).and (lasting_begun begun).stable)
      fun shared _ hbefore ↦ ⟨⟨hbefore.1, rfl⟩, hbefore.2⟩) fun row ↦ ?_
    cases row with
    | none =>
      have hnone : Lasting (Looked hash id (begun, (none : Option Digest))) := lasting_looked id _
      refine Prog.Leads.bind (Prog.Leads.imp (follows_leaveStored hnone) ?_ fun _ _ _ hafter ↦ hafter) fun _ ↦ ?_
      · exact fun _ _ hbefore ↦ ⟨hbefore.1.1, hbefore.2, fun digest hdigest ↦ nomatch hdigest⟩
      · exact Prog.Leads.pure _ hnone.stable fun _ _ hlooked ↦ hlooked
    | some row =>
      have hsome : Lasting (Looked hash id (begun, some row.secretSha256)) := lasting_looked id _
      refine Prog.Leads.bind (Prog.Leads.imp (follows_remember hsome row id) ?_ fun _ _ _ hafter ↦ hafter) fun _ ↦ ?_
      · rintro shared hgood ⟨hrow, hbegun⟩
        refine ⟨hrow, hbegun, ?_⟩
        rintro digest ⟨⟩
        exact (hgood.cache.issuedSince hrow.2).of_le hbegun
      refine Prog.Leads.bind (follows_leaveStored hsome) fun _ ↦ ?_
      exact Prog.Leads.pure _ hsome.stable fun _ _ hlooked ↦ hlooked

/-- What a verification answered that began when the log had `begun` entries. -/
def Answered (hash : Secret → Digest) (token : PhoneToken Secret) (begun : ℕ) (accepted : Bool)
    (log : List (Event Secret)) : Prop :=
  begun ≤ log.length ∧ (accepted = true → IssuedSince hash log begun token.phone (hash token.secret))

theorem lasting_answered (token : PhoneToken Secret) (begun : ℕ) (accepted : Bool) :
    Lasting (Answered hash token begun accepted) :=
  fun _ _ hlonger hanswered ↦ ⟨hanswered.1.trans hlonger.length_le,
    fun haccepted ↦ (hanswered.2 haccepted).mono hanswered.1 hlonger⟩

/-- The answer of a verification is entered in the log. -/
theorem Good.verified (hgood : Good hash before) {token : PhoneToken Secret} {begun : ℕ} {accepted : Bool}
    (hanswered : Answered hash token begun accepted before.log) :
    Good hash (before.note (.verified token begun accepted)) ∧
      Moves thread before (before.note (.verified token begun accepted)) ∧
      Answered hash token begun accepted (before.note (.verified token begun accepted)).log := by
  refine ⟨?_, ?_, ?_⟩
  · exact hgood.note (fun _ ↦ id) (fun _ _ ↦ ⟨nofun, nofun⟩)
      (fun haccepted ↦ ⟨hanswered.1, hanswered.2 haccepted⟩) nofun nofun nofun id
  · exact Moves.returned nofun nofun nofun
  · exact lasting_answered token begun accepted _ _ (List.prefix_append _ _) hanswered

variable [DecidableEq Digest]

theorem follows_verifyCached (token : PhoneToken Secret) :
    Follows hash thread (fun _ ↦ True) (verifyCached hash token)
      fun result shared ↦ Answered hash token result.1 (result.2 = .paired) shared.log := by
  apply Prog.Leads.access stable_true fun result ↦ (lasting_answered token _ _).stable
  intro shared hgood _
  apply hgood.verified
  refine ⟨le_rfl, fun hpaired ↦ ?_⟩
  have hpaired := of_decide_eq_true hpaired
  split at hpaired
  · next stored hstored =>
    split_ifs at hpaired with hmatches
    rw [← of_decide_eq_true hmatches] at hstored
    exact hgood.cache.known _ _ hstored
  · cases hpaired

theorem follows_verify (tries : ℕ) (token : PhoneToken Secret) :
    Follows hash thread (fun _ ↦ True) (verify hash thread tries token)
      fun result shared ↦ Answered hash token result.1 result.2 shared.log := by
  unfold verify
  refine Prog.Leads.bind (follows_secretOf tries token.phone) ?_
  rintro ⟨begun, stored⟩
  have hlasting : Lasting (Answered hash token begun (stored.any (matchesSecret hash token))) :=
    lasting_answered token _ _
  refine Prog.Leads.bind (Prog.Leads.imp (P := fun shared ↦
    Answered hash token begun (stored.any (matchesSecret hash token)) shared.log)
    (follows_change hlasting.stable hlasting.stable fun shared hgood hanswered ↦ hgood.verified hanswered)
    ?_ fun _ _ _ hafter ↦ hafter) fun _ ↦ ?_
  · rintro shared - hlooked
    refine ⟨hlooked.1, fun haccepted ↦ ?_⟩
    cases stored with
    | none => cases haccepted
    | some digest =>
      rw [of_decide_eq_true (haccepted : matchesSecret hash token digest = true)]
      exact hlooked.2 digest rfl
  · exact Prog.Leads.pure _ hlasting.stable fun _ _ hanswered ↦ hanswered

theorem follows_authenticate (tries : ℕ) (token : PhoneToken Secret) :
    Follows hash thread (fun _ ↦ True) (authenticate hash thread tries token)
      fun result shared ↦ Answered hash token result.1 result.2 shared.log := by
  unfold authenticate
  refine Prog.Leads.bind (follows_verifyCached token) ?_
  rintro ⟨begun, verified⟩
  cases verified with
  | paired =>
    exact Prog.Leads.pure _ (lasting_answered token begun _).stable fun _ _ hanswered ↦ hanswered
  | unknown => exact Prog.Leads.imp (follows_verify tries token) (fun _ _ _ ↦ trivial) fun _ _ _ hafter ↦ hafter
  | refused =>
    exact Prog.Leads.pure _ (lasting_answered token begun _).stable
      fun _ _ hanswered ↦ ⟨hanswered.1, fun hfalse ↦ nomatch hfalse⟩

end Sdrmm.Phones
