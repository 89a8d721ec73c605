import Mathlib.Tactic
import Sdrmm.Server.Phones

/-!
# The cache of phone digests

What the log says of the cache and the table of phones: a digest in the cache is of a write that no finished
removal or rotation lies behind, and while the lock `stored` is free the cache agrees with the table.
`CacheKept` is kept by every step that is made under the lock it needs.
-/

namespace Sdrmm.Phones

variable {Secret Digest : Type} {hash : Secret → Digest}

/-! ## The log -/

theorem getElem?_append_singleton {α : Type} {list : List α} {item found : α} {index : ℕ} :
    (list ++ [item])[index]? = some found ↔
      list[index]? = some found ∨ index = list.length ∧ item = found := by
  rcases lt_trichotomy index list.length with hlt | rfl | hgt
  · rw [List.getElem?_append_left hlt]
    exact (or_iff_left fun hlast ↦ absurd hlast.1 (Nat.ne_of_lt hlt)).symm
  · simp
  · rw [List.getElem?_eq_none (by rw [List.length_append]; exact hgt), List.getElem?_eq_none hgt.le]
    simp only [reduceCtorEq, false_or, false_iff]
    exact fun hlast ↦ absurd hlast.1 (Nat.ne_of_gt hgt)

theorem getElem?_of_longer {α : Type} {list longer : List α} (hlonger : list <+: longer) {index : ℕ}
    {found : α} (hfound : list[index]? = some found) : longer[index]? = some found := by
  obtain ⟨rest, rfl⟩ := hlonger
  rw [List.getElem?_append_left (List.getElem?_eq_some_iff.mp hfound).1]
  exact hfound

theorem lt_length_of_getElem? {α : Type} {list : List α} {index : ℕ} {found : α}
    (hfound : list[index]? = some found) : index < list.length :=
  (List.getElem?_eq_some_iff.mp hfound).1

/-- A write to the row of a phone. -/
def Event.Writes (phone : String) : Event Secret → Prop
  | .issued issue => issue.token.phone = phone
  | .deleted other => other = phone
  | _ => False

/-- An entry of the log. -/
abbrev At (log : List (Event Secret)) (place : ℕ) (event : Event Secret) : Prop :=
  log[place]? = some event

/-- At a place of the log a pairing wrote a digest for a phone. -/
def IssuedAt (hash : Secret → Digest) (log : List (Event Secret)) (place : ℕ) (phone : String)
    (digest : Digest) : Prop :=
  ∃ issue, At log place (.issued issue) ∧ issue.token.phone = phone ∧
    hash issue.token.secret = digest

/-- A digest was issued after the removals, and not before the rotations, that reached the cache within the
first `count` entries of the log. -/
def IssuedSince (hash : Secret → Digest) (log : List (Event Secret)) (count : ℕ) (phone : String)
    (digest : Digest) : Prop :=
  ∀ place < count, ∀ write,
    (At log place (.forgot phone write) → ∃ later, write < later ∧ IssuedAt hash log later phone digest) ∧
    (At log place (.renewed phone write) → ∃ later, write ≤ later ∧ IssuedAt hash log later phone digest)

/-- Whatever was issued for a phone before `looked` was deleted later, and the removal reached the cache within
the first `count` entries of the log. -/
def Departed (hash : Secret → Digest) (log : List (Event Secret)) (count looked : ℕ) (phone : String) : Prop :=
  looked ≤ count ∧ ∀ place < looked, ∀ digest, IssuedAt hash log place phone digest →
    ∃ write, place < write ∧ ∃ earlier < count, At log earlier (.forgot phone write)

variable {log longer : List (Event Secret)} {phone : String} {digest : Digest}

theorem IssuedAt.mono {place : ℕ} (hissued : IssuedAt hash log place phone digest)
    (hlonger : log <+: longer) : IssuedAt hash longer place phone digest := by
  obtain ⟨issue, hissue, hphone, hdigest⟩ := hissued
  exact ⟨issue, getElem?_of_longer hlonger hissue, hphone, hdigest⟩

/-- What lies within the first entries stays there. -/
theorem IssuedSince.mono {count : ℕ} (hsince : IssuedSince hash log count phone digest)
    (hcount : count ≤ log.length) (hlonger : log <+: longer) :
    IssuedSince hash longer count phone digest := by
  obtain ⟨rest, rfl⟩ := hlonger
  intro place hplace write
  unfold At
  rw [List.getElem?_append_left (hplace.trans_le hcount)]
  constructor
  · intro hforgot
    obtain ⟨later, hlater, hissued⟩ := (hsince place hplace write).1 hforgot
    exact ⟨later, hlater, hissued.mono (List.prefix_append log rest)⟩
  · intro hrenewed
    obtain ⟨later, hlater, hissued⟩ := (hsince place hplace write).2 hrenewed
    exact ⟨later, hlater, hissued.mono (List.prefix_append log rest)⟩

/-- A rotation that reaches the cache is behind the digest it wrote. -/
theorem IssuedSince.renew {write : ℕ} (hsince : IssuedSince hash log log.length phone digest)
    (hissued : IssuedAt hash log write phone digest) :
    IssuedSince hash (log ++ [Event.renewed phone write]) (log ++ [Event.renewed phone write]).length phone digest := by
  have hkept := hsince.mono le_rfl (List.prefix_append log [Event.renewed phone write])
  intro place hplace other
  constructor
  · intro hforgot
    rcases getElem?_append_singleton.mp hforgot with hold | ⟨-, hnew⟩
    · exact (hkept place (lt_length_of_getElem? hold) other).1 hforgot
    · cases hnew
  · intro hrenewed
    rcases getElem?_append_singleton.mp hrenewed with hold | ⟨-, hnew⟩
    · exact (hkept place (lt_length_of_getElem? hold) other).2 hrenewed
    · cases hnew
      exact ⟨write, le_rfl, hissued.mono (List.prefix_append log _)⟩

theorem IssuedSince.of_le {count most : ℕ} (hsince : IssuedSince hash log most phone digest)
    (hle : count ≤ most) : IssuedSince hash log count phone digest :=
  fun place hplace ↦ hsince place (hplace.trans_le hle)

/-- An entry that is no news of the cache adds nothing to what a digest has to be issued after. -/
theorem IssuedSince.append {event : Event Secret} (hsince : IssuedSince hash log log.length phone digest)
    (hforgot : ∀ write, event ≠ .forgot phone write) (hrenewed : ∀ write, event ≠ .renewed phone write) :
    IssuedSince hash (log ++ [event]) (log ++ [event]).length phone digest := by
  have hkept := hsince.mono le_rfl (List.prefix_append log [event])
  intro place hplace write
  constructor
  · intro hplaced
    rcases getElem?_append_singleton.mp hplaced with hold | ⟨-, rfl⟩
    · exact (hkept place (lt_length_of_getElem? hold) write).1 hplaced
    · exact absurd rfl (hforgot write)
  · intro hplaced
    rcases getElem?_append_singleton.mp hplaced with hold | ⟨-, rfl⟩
    · exact (hkept place (lt_length_of_getElem? hold) write).2 hplaced
    · exact absurd rfl (hrenewed write)

theorem IssuedAt.of_longer {place : ℕ} (hissued : IssuedAt hash longer place phone digest)
    (hlonger : log <+: longer) (hplace : place < log.length) : IssuedAt hash log place phone digest := by
  obtain ⟨issue, hissue, hphone, hdigest⟩ := hissued
  obtain ⟨rest, rfl⟩ := hlonger
  unfold At at hissue
  rw [List.getElem?_append_left hplace] at hissue
  exact ⟨issue, hissue, hphone, hdigest⟩

theorem Departed.mono {count looked : ℕ} (hdeparted : Departed hash log count looked phone)
    (hcount : count ≤ log.length) (hlonger : log <+: longer) : Departed hash longer count looked phone := by
  refine ⟨hdeparted.1, ?_⟩
  intro place hplace digest hissued
  have hshort : place < log.length := hplace.trans_le (hdeparted.1.trans hcount)
  obtain ⟨write, hwrite, earlier, hearlier, hforgot⟩ :=
    hdeparted.2 place hplace digest (hissued.of_longer hlonger hshort)
  exact ⟨write, hwrite, earlier, hearlier, getElem?_of_longer hlonger hforgot⟩

theorem Departed.of_le {count most looked : ℕ} (hdeparted : Departed hash log count looked phone)
    (hle : count ≤ most) : Departed hash log most looked phone := by
  refine ⟨hdeparted.1.trans hle, ?_⟩
  intro place hplace digest hissued
  obtain ⟨write, hwrite, earlier, hearlier, hforgot⟩ := hdeparted.2 place hplace digest hissued
  exact ⟨write, hwrite, earlier, hearlier.trans_le hle, hforgot⟩

/-! ## What is kept -/

/-- The cache has only what the table has. -/
def Agrees (shared : Shared Secret Digest) : Prop :=
  ∀ phone digest, shared.known phone = some digest →
    ∃ row, shared.phones phone = some row ∧ row.secretSha256 = digest

/-- Every removal has reached the cache. -/
def Settled (log : List (Event Secret)) : Prop :=
  ∀ write phone, At log write (.deleted phone) → ∃ place, At log place (.forgot phone write)

structure CacheKept (hash : Secret → Digest) (shared : Shared Secret Digest) : Prop where
  stores : ∀ phone row, shared.phones phone = some row →
    ∃ place, IssuedAt hash shared.log place phone row.secretSha256 ∧
      ∀ later, place < later → ∀ event, shared.log[later]? = some event → ¬event.Writes phone
  gone : ∀ phone, shared.phones phone = none → ∀ place digest, IssuedAt hash shared.log place phone digest →
    ∃ write, place < write ∧ At shared.log write (.deleted phone)
  known : ∀ phone digest, shared.known phone = some digest →
    IssuedSince hash shared.log shared.log.length phone digest
  agree : shared.stored = none → Agrees shared ∧ Settled shared.log
  forgot : ∀ place phone write, At shared.log place (.forgot phone write) →
    write < place ∧ At shared.log write (.deleted phone)
  renewed : ∀ place phone write, At shared.log place (.renewed phone write) →
    write < place ∧ ∃ digest, IssuedAt hash shared.log write phone digest
  /-- A row is written again only once its removal has reached the cache. -/
  refilled : ∀ write place phone digest, write < place → At shared.log write (.deleted phone) →
    IssuedAt hash shared.log place phone digest →
    ∃ between, between < place ∧ At shared.log between (.forgot phone write)
  removed : ∀ place phone write, At shared.log place (.removed phone write) →
    ∃ earlier, earlier < place ∧ At shared.log earlier (.forgot phone write)
  paired : ∀ place phone write, At shared.log place (.paired phone write) →
    ∃ earlier, earlier < place ∧ At shared.log earlier (.renewed phone write)
  absent : ∀ place phone looked, At shared.log place (.absent phone looked) →
    Departed hash shared.log place looked phone
  verified : ∀ place token begun, At shared.log place (.verified token begun true) →
    begun ≤ place ∧ IssuedSince hash shared.log begun token.phone (hash token.secret)

variable {before after : Shared Secret Digest}

/-- The digest of a row in the table is of the last write to it. -/
theorem CacheKept.issuedSince (hkept : CacheKept hash before) {row : PhoneRow Digest}
    (hrow : before.phones phone = some row) :
    IssuedSince hash before.log before.log.length phone row.secretSha256 := by
  obtain ⟨place, hissued, hlast⟩ := hkept.stores phone row hrow
  have hbehind : ∀ write event, before.log[write]? = some event → event.Writes phone → write ≤ place := by
    intro write event hevent hwrites
    by_contra hlater
    exact hlast write (not_le.mp hlater) event hevent hwrites
  intro other _ write
  constructor
  · intro hforgot
    obtain ⟨-, hdeleted⟩ := hkept.forgot other phone write hforgot
    refine ⟨place, lt_of_le_of_ne (hbehind write _ hdeleted rfl) ?_, hissued⟩
    rintro rfl
    obtain ⟨issue, hissue, -⟩ := hissued
    cases hissue.symm.trans hdeleted
  · intro hrenewed
    obtain ⟨-, digest, issue, hissue, hphone, -⟩ := hkept.renewed other phone write hrenewed
    exact ⟨place, hbehind write _ hissue hphone, hissued⟩

/-- What an entry of the log may say, given the log before it. -/
def Event.Sound (hash : Secret → Digest) (log : List (Event Secret)) : Event Secret → Prop
  | .forgot phone write => At log write (.deleted phone)
  | .renewed phone write => ∃ digest, IssuedAt hash log write phone digest
  | .removed phone write => ∃ earlier, At log earlier (.forgot phone write)
  | .paired phone write => ∃ earlier, At log earlier (.renewed phone write)
  | .absent phone looked => Departed hash log log.length looked phone
  | .verified token begun accepted => accepted = true →
    begun ≤ log.length ∧ IssuedSince hash log begun token.phone (hash token.secret)
  | _ => True

/-- A step that writes no row and adds one entry to the log. -/
theorem CacheKept.append (hkept : CacheKept hash before) {event : Event Secret}
    (hlog : after.log = before.log ++ [event]) (hwrites : ∀ phone, ¬event.Writes phone)
    (hsound : event.Sound hash before.log) (hphones : after.phones = before.phones)
    (hknown : ∀ phone digest, after.known phone = some digest →
      IssuedSince hash after.log after.log.length phone digest)
    (hagree : after.stored = none → Agrees after ∧ Settled after.log) : CacheKept hash after := by
  have hlonger : before.log <+: after.log := ⟨[event], hlog.symm⟩
  have hcases : ∀ {place : ℕ} {found : Event Secret}, after.log[place]? = some found →
      before.log[place]? = some found ∨ place = before.log.length ∧ event = found := by
    intro place found hfound
    rw [hlog] at hfound
    exact getElem?_append_singleton.mp hfound
  have hissued : ∀ {place : ℕ} {phone : String} {digest : Digest},
      IssuedAt hash after.log place phone digest → IssuedAt hash before.log place phone digest := by
    rintro place phone digest ⟨issue, hissue, hphone, hdigest⟩
    rcases hcases hissue with hold | ⟨-, rfl⟩
    · exact ⟨issue, hold, hphone, hdigest⟩
    · exact absurd hphone (hwrites phone)
  refine ⟨?_, ?_, hknown, hagree, ?_, ?_, ?_, ?_, ?_, ?_, ?_⟩
  · intro phone row hrow
    rw [hphones] at hrow
    obtain ⟨place, hplace, hlast⟩ := hkept.stores phone row hrow
    refine ⟨place, hplace.mono hlonger, ?_⟩
    intro later hlater found hfound
    rcases hcases hfound with hold | ⟨-, rfl⟩
    · exact hlast later hlater found hold
    · exact hwrites phone
  · intro phone hnone place digest hplace
    rw [hphones] at hnone
    obtain ⟨write, hwrite, hdeleted⟩ := hkept.gone phone hnone place digest (hissued hplace)
    exact ⟨write, hwrite, getElem?_of_longer hlonger hdeleted⟩
  · intro place phone write hfound
    rcases hcases hfound with hold | ⟨rfl, rfl⟩
    · obtain ⟨hlt, hdeleted⟩ := hkept.forgot place phone write hold
      exact ⟨hlt, getElem?_of_longer hlonger hdeleted⟩
    · exact ⟨lt_length_of_getElem? hsound, getElem?_of_longer hlonger hsound⟩
  · intro place phone write hfound
    rcases hcases hfound with hold | ⟨rfl, rfl⟩
    · obtain ⟨hlt, digest, hdigest⟩ := hkept.renewed place phone write hold
      exact ⟨hlt, digest, hdigest.mono hlonger⟩
    · obtain ⟨digest, hdigest⟩ := hsound
      have hlt : write < before.log.length := lt_length_of_getElem? hdigest.choose_spec.1
      exact ⟨hlt, digest, hdigest.mono hlonger⟩
  · intro write place phone digest hlt hdeleted hplace
    rcases hcases hdeleted with hold | ⟨-, rfl⟩
    · obtain ⟨between, hbetween, hforgot⟩ :=
        hkept.refilled write place phone digest hlt hold (hissued hplace)
      exact ⟨between, hbetween, getElem?_of_longer hlonger hforgot⟩
    · exact absurd rfl (hwrites phone)
  · intro place phone write hfound
    rcases hcases hfound with hold | ⟨rfl, rfl⟩
    · obtain ⟨earlier, hearlier, hforgot⟩ := hkept.removed place phone write hold
      exact ⟨earlier, hearlier, getElem?_of_longer hlonger hforgot⟩
    · obtain ⟨earlier, hforgot⟩ := hsound
      exact ⟨earlier, lt_length_of_getElem? hforgot, getElem?_of_longer hlonger hforgot⟩
  · intro place phone write hfound
    rcases hcases hfound with hold | ⟨rfl, rfl⟩
    · obtain ⟨earlier, hearlier, hrenewed⟩ := hkept.paired place phone write hold
      exact ⟨earlier, hearlier, getElem?_of_longer hlonger hrenewed⟩
    · obtain ⟨earlier, hrenewed⟩ := hsound
      exact ⟨earlier, lt_length_of_getElem? hrenewed, getElem?_of_longer hlonger hrenewed⟩
  · intro place phone looked hfound
    rcases hcases hfound with hold | ⟨rfl, rfl⟩
    · exact (hkept.absent place phone looked hold).mono (lt_length_of_getElem? hold).le hlonger
    · exact hsound.mono le_rfl hlonger
  · intro place token begun hfound
    rcases hcases hfound with hold | ⟨rfl, rfl⟩
    · obtain ⟨hle, hsince⟩ := hkept.verified place token begun hold
      exact ⟨hle, hsince.mono (hle.trans (lt_length_of_getElem? hold).le) hlonger⟩
    · obtain ⟨hle, hsince⟩ := hsound rfl
      exact ⟨hle, hsince.mono hle hlonger⟩

theorem Settled.append {event : Event Secret} (hsettled : Settled log)
    (hdeleted : ∀ phone, event ≠ .deleted phone) : Settled (log ++ [event]) := by
  intro write phone hwrite
  rcases getElem?_append_singleton.mp hwrite with hold | ⟨-, rfl⟩
  · obtain ⟨place, hplace⟩ := hsettled write phone hold
    exact ⟨place, getElem?_of_longer (List.prefix_append log [event]) hplace⟩
  · exact absurd rfl (hdeleted phone)

/-- A step that leaves the tables and the cache and adds an entry that is no news of the cache. -/
theorem CacheKept.note (hkept : CacheKept hash before) {event : Event Secret}
    (hlog : after.log = before.log ++ [event]) (hwrites : ∀ phone, ¬event.Writes phone)
    (hforgot : ∀ phone write, event ≠ .forgot phone write)
    (hrenewed : ∀ phone write, event ≠ .renewed phone write) (hsound : event.Sound hash before.log)
    (hphones : after.phones = before.phones) (hknown : after.known = before.known)
    (hstored : after.stored = before.stored) : CacheKept hash after := by
  apply hkept.append hlog hwrites hsound hphones
  · intro phone digest hdigest
    rw [hknown] at hdigest
    rw [hlog]
    exact (hkept.known phone digest hdigest).append (hforgot phone) (hrenewed phone)
  · intro hfree
    rw [hstored] at hfree
    obtain ⟨hagrees, hsettled⟩ := hkept.agree hfree
    refine ⟨?_, ?_⟩
    · unfold Agrees
      rw [hknown, hphones]
      exact hagrees
    · rw [hlog]
      refine hsettled.append ?_
      rintro phone rfl
      exact hwrites phone rfl

/-- A step that adds nothing to the log and writes no row. -/
theorem CacheKept.same_log (hkept : CacheKept hash before) (hlog : after.log = before.log)
    (hphones : after.phones = before.phones)
    (hknown : ∀ phone digest, after.known phone = some digest →
      before.known phone = some digest ∨ ∃ row, before.phones phone = some row ∧ row.secretSha256 = digest)
    (hagree : after.stored = none → Agrees after ∧ Settled before.log) : CacheKept hash after := by
  rw [← hlog] at hagree
  refine ⟨?_, ?_, ?_, hagree, ?_, ?_, ?_, ?_, ?_, ?_, ?_⟩
  · rw [hlog, hphones]
    exact hkept.stores
  · rw [hlog, hphones]
    exact hkept.gone
  · intro phone digest hdigest
    rw [hlog]
    rcases hknown phone digest hdigest with hbefore | ⟨row, hrow, rfl⟩
    · exact hkept.known phone digest hbefore
    · exact hkept.issuedSince hrow
  all_goals rw [hlog]
  · exact hkept.forgot
  · exact hkept.renewed
  · exact hkept.refilled
  · exact hkept.removed
  · exact hkept.paired
  · exact hkept.absent
  · exact hkept.verified

/-- The row of a phone is written or deleted under the lock, and the log says so. -/
theorem CacheKept.write (hkept : CacheKept hash before) {event : Event Secret} {phone : String}
    {row : Option (PhoneRow Digest)} (hlog : after.log = before.log ++ [event])
    (hevent : event = .deleted phone ∧ row = none ∨ ∃ issue written, event = .issued issue ∧
      issue.token.phone = phone ∧ row = some written ∧ hash issue.token.secret = written.secretSha256)
    (hphones : after.phones = Function.update before.phones phone row) (hknown : after.known = before.known)
    (hstored : after.stored ≠ none) (hsettled : Settled before.log) : CacheKept hash after := by
  have hlonger : before.log <+: after.log := ⟨[event], hlog.symm⟩
  have hwrites : ∀ other, event.Writes other → other = phone := by
    rintro other hother
    rcases hevent with ⟨rfl, -⟩ | ⟨issue, written, rfl, rfl, -⟩
    · exact hother.symm
    · exact hother.symm
  have hcases : ∀ {place : ℕ} {found : Event Secret}, At after.log place found →
      At before.log place found ∨ place = before.log.length ∧ event = found := by
    intro place found hfound
    unfold At at hfound
    rw [hlog] at hfound
    exact getElem?_append_singleton.mp hfound
  -- The new entry is a write, which no other kind of entry is.
  have hold : ∀ {place : ℕ} {found : Event Secret}, At after.log place found →
      (∀ other, ¬found.Writes other) → At before.log place found := by
    intro place found hfound hother
    rcases hcases hfound with hbefore | ⟨-, rfl⟩
    · exact hbefore
    · rcases hevent with ⟨rfl, -⟩ | ⟨issue, written, rfl, hphone, -⟩
      · exact absurd rfl (hother phone)
      · exact absurd hphone (hother phone)
  refine ⟨?_, ?_, ?_, fun hfree ↦ absurd hfree hstored, ?_, ?_, ?_, ?_, ?_, ?_, ?_⟩
  · intro other found hfound
    rw [hphones] at hfound
    by_cases hsame : other = phone
    · subst hsame
      rw [Function.update_self] at hfound
      subst hfound
      rcases hevent with ⟨-, hnone⟩ | ⟨issue, written, rfl, hphone, hrow, hdigest⟩
      · cases hnone
      obtain rfl := Option.some.inj hrow
      refine ⟨before.log.length, ⟨issue, ?_, hphone, hdigest⟩, ?_⟩
      · rw [hlog]
        exact getElem?_append_singleton.mpr (Or.inr ⟨rfl, rfl⟩)
      · intro later hlater event hlast
        rw [hlog] at hlast
        have hshort := lt_length_of_getElem? hlast
        rw [List.length_append, List.length_singleton] at hshort
        omega
    · rw [Function.update_of_ne hsame] at hfound
      obtain ⟨place, hplace, hlast⟩ := hkept.stores other found hfound
      refine ⟨place, hplace.mono hlonger, ?_⟩
      intro later hlater event hevent hwrite
      rcases hcases hevent with hbefore | ⟨-, rfl⟩
      · exact hlast later hlater event hbefore hwrite
      · exact hsame (hwrites other hwrite)
  · intro other hnone place digest hplace
    rw [hphones] at hnone
    by_cases hsame : other = phone
    · subst hsame
      rw [Function.update_self] at hnone
      rcases hevent with ⟨rfl, -⟩ | ⟨issue, written, -, -, hrow, -⟩
      · obtain ⟨issue, hissue, -⟩ := hplace
        refine ⟨before.log.length, ?_, ?_⟩
        · exact lt_length_of_getElem? ((hcases hissue).resolve_right fun hnew ↦ nomatch hnew.2)
        · rw [hlog]
          exact getElem?_append_singleton.mpr (Or.inr ⟨rfl, rfl⟩)
      · cases hrow.symm.trans hnone
    · rw [Function.update_of_ne hsame] at hnone
      obtain ⟨issue, hissue, hphone, hdigest⟩ := hplace
      have hbefore := (hcases hissue).resolve_right fun hnew ↦ hsame (hwrites other (hnew.2 ▸ hphone))
      obtain ⟨write, hwrite, hdeleted⟩ := hkept.gone other hnone place digest ⟨issue, hbefore, hphone, hdigest⟩
      exact ⟨write, hwrite, getElem?_of_longer hlonger hdeleted⟩
  · intro other digest hdigest
    rw [hknown] at hdigest
    rw [hlog]
    apply (hkept.known other digest hdigest).append
    · rintro write rfl
      rcases hevent with ⟨hkind, -⟩ | ⟨issue, written, hkind, -⟩ <;> cases hkind
    · rintro write rfl
      rcases hevent with ⟨hkind, -⟩ | ⟨issue, written, hkind, -⟩ <;> cases hkind
  · intro place other write hplace
    obtain ⟨hlt, hdeleted⟩ := hkept.forgot place other write (hold hplace fun _ ↦ id)
    exact ⟨hlt, getElem?_of_longer hlonger hdeleted⟩
  · intro place other write hplace
    obtain ⟨hlt, digest, hissued⟩ := hkept.renewed place other write (hold hplace fun _ ↦ id)
    exact ⟨hlt, digest, hissued.mono hlonger⟩
  · intro write place other digest hlt hdeleted hplace
    rcases hcases hdeleted with hbefore | ⟨rfl, -⟩
    · -- Every removal so far has reached the cache, so the new write comes after that.
      obtain ⟨between, hforgot⟩ := hsettled write other hbefore
      obtain ⟨issue, hissue, hphone, hdigest⟩ := hplace
      rcases hcases hissue with hissue | ⟨rfl, -⟩
      · obtain ⟨earlier, hearlier, hfound⟩ :=
          hkept.refilled write place other digest hlt hbefore ⟨issue, hissue, hphone, hdigest⟩
        exact ⟨earlier, hearlier, getElem?_of_longer hlonger hfound⟩
      · exact ⟨between, lt_length_of_getElem? hforgot, getElem?_of_longer hlonger hforgot⟩
    · have hshort := lt_length_of_getElem? hplace.choose_spec.1
      rw [hlog, List.length_append, List.length_singleton] at hshort
      omega
  · intro place other write hplace
    obtain ⟨earlier, hearlier, hforgot⟩ := hkept.removed place other write (hold hplace fun _ ↦ id)
    exact ⟨earlier, hearlier, getElem?_of_longer hlonger hforgot⟩
  · intro place other write hplace
    obtain ⟨earlier, hearlier, hrenewed⟩ := hkept.paired place other write (hold hplace fun _ ↦ id)
    exact ⟨earlier, hearlier, getElem?_of_longer hlonger hrenewed⟩
  · intro place other looked hplace
    have hbefore := hold hplace fun _ ↦ id
    exact (hkept.absent place other looked hbefore).mono (lt_length_of_getElem? hbefore).le hlonger
  · intro place token begun hplace
    have hbefore := hold hplace fun _ ↦ id
    obtain ⟨hle, hsince⟩ := hkept.verified place token begun hbefore
    exact ⟨hle, hsince.mono (hle.trans (lt_length_of_getElem? hbefore).le) hlonger⟩

end Sdrmm.Phones
