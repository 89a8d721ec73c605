import Sdrmm.Server.PhonesCache

/-!
# The session table

What the log says of the sessions: one that joined is revoked by every sweep of its phone, unless its token
was issued after that removal or a pairing put the phone back while the session was on its way in.
-/

namespace Sdrmm.Phones

variable {Secret Digest : Type} {hash : Secret → Digest} {before after : Shared Secret Digest}

/-- The first pairing that wrote the row of a phone after its removal at `write`. -/
def PutsBack (log : List (Event Secret)) (phone : String) (write place : ℕ) : Prop :=
  write < place ∧ (∃ issue, At log place (.issued issue) ∧ issue.token.phone = phone) ∧
    ∀ between issue, write < between → between < place → At log between (.issued issue) →
      issue.token.phone ≠ phone

/-- What lets a session outlive the sweep of a removal: a digest like its own that was issued after the removal;
or it entered after the sweep, and the phone had been put back between the time its token was checked and the
time it looked for the phone. -/
def Outlives (hash : Secret → Digest) (log : List (Event Secret)) (token : PhoneToken Secret)
    (begun entered checked sweep write : ℕ) : Prop :=
  (∃ later, write < later ∧ IssuedAt hash log later token.phone (hash token.secret)) ∨
    sweep < entered ∧ ∃ place, begun ≤ place ∧ place < checked ∧ PutsBack log token.phone write place

structure SessionsKept (hash : Secret → Digest) (shared : Shared Secret Digest) : Prop where
  drawn : ∀ session ∈ shared.sessions, session.id < shared.next
  swept : ∀ place phone write, At shared.log place (.swept phone write) →
    ∃ earlier, earlier < place ∧ At shared.log earlier (.forgot phone write)
  removed : ∀ place phone write, At shared.log place (.removed phone write) →
    ∃ earlier, earlier < place ∧ At shared.log earlier (.swept phone write)
  joined : ∀ place token thread id begun entered checked,
    At shared.log place (.joined token thread id begun entered checked) → id < shared.next ∧
      ∀ session ∈ shared.sessions, session.thread = thread → session.id = id →
        session.phone = token.phone ∧ (session.revoked = false →
          ∀ sweep write, At shared.log sweep (.swept token.phone write) →
            Outlives hash shared.log token begun entered checked sweep write)

variable {log longer : List (Event Secret)}

theorem PutsBack.mono {phone : String} {write place : ℕ} (hback : PutsBack log phone write place)
    (hlonger : log <+: longer) : PutsBack longer phone write place := by
  obtain ⟨hwrite, ⟨issue, hissue, hphone⟩, hfirst⟩ := hback
  refine ⟨hwrite, ⟨issue, getElem?_of_longer hlonger hissue, hphone⟩, ?_⟩
  intro between other hafter hbefore hother
  apply hfirst between other hafter hbefore
  obtain ⟨rest, rfl⟩ := hlonger
  unfold At at hother
  rw [List.getElem?_append_left (hbefore.trans (lt_length_of_getElem? hissue))] at hother
  exact hother

theorem Outlives.mono {token : PhoneToken Secret} {begun entered checked sweep write : ℕ}
    (houtlives : Outlives hash log token begun entered checked sweep write) (hlonger : log <+: longer) :
    Outlives hash longer token begun entered checked sweep write := by
  rcases houtlives with ⟨later, hlater, hissued⟩ | ⟨hentered, place, hbegun, hchecked, hback⟩
  · exact Or.inl ⟨later, hlater, hissued.mono hlonger⟩
  · exact Or.inr ⟨hentered, place, hbegun, hchecked, hback.mono hlonger⟩

/-- A session is one that was there, revoked if it was. -/
def Stems (session : Session) (sessions : List Session) : Prop :=
  ∃ old ∈ sessions, old.thread = session.thread ∧ old.id = session.id ∧ old.phone = session.phone ∧
    (old.revoked = true → session.revoked = true)

theorem Stems.refl {session : Session} {sessions : List Session} (hsession : session ∈ sessions) :
    Stems session sessions := ⟨session, hsession, rfl, rfl, rfl, id⟩

theorem Stems.revoke {session : Session} {phone : String}
    (hsession : session ∈ (before.revoke phone).sessions) :
    Stems session before.sessions ∧ (session.phone = phone → session.revoked = true) := by
  obtain ⟨old, hold, rfl⟩ := List.mem_map.mp hsession
  split_ifs with hphone
  · exact ⟨⟨old, hold, rfl, rfl, rfl, fun _ ↦ rfl⟩, fun _ ↦ rfl⟩
  · exact ⟨Stems.refl hold, fun hsame ↦ absurd hsame hphone⟩

/-- A joined session keeps its reason to be there. -/
theorem SessionsKept.of_stems (hkept : SessionsKept hash before) {session : Session}
    (hstems : Stems session before.sessions) {place : ℕ} {token : PhoneToken Secret}
    {thread id begun entered checked : ℕ} (hplace : At before.log place (.joined token thread id begun entered checked))
    (hthread : session.thread = thread) (hid : session.id = id) :
    session.phone = token.phone ∧ (session.revoked = false →
      ∀ sweep write, At before.log sweep (.swept token.phone write) →
        Outlives hash before.log token begun entered checked sweep write) := by
  obtain ⟨old, hold, hsameThread, hsameId, hsamePhone, hrevoked⟩ := hstems
  obtain ⟨-, hall⟩ := hkept.joined place token thread id begun entered checked hplace
  obtain ⟨hphone, hunrevoked⟩ := hall old hold (hsameThread.trans hthread) (hsameId.trans hid)
  refine ⟨hsamePhone.symm.trans hphone, fun hfalse ↦ hunrevoked ?_⟩
  rw [← Bool.not_eq_true]
  intro htrue
  exact Bool.noConfusion (hfalse.symm.trans (hrevoked htrue))

/-- A step that adds nothing to the log: sessions may be entered that have not joined yet. -/
theorem SessionsKept.same_log (hkept : SessionsKept hash before) (hlog : after.log = before.log)
    (hnext : before.next ≤ after.next)
    (hsessions : ∀ session ∈ after.sessions, Stems session before.sessions ∨
      session.id < after.next ∧ ∀ place token begun entered checked,
        ¬At before.log place (.joined token session.thread session.id begun entered checked)) :
    SessionsKept hash after := by
  refine ⟨?_, ?_, ?_, ?_⟩
  · intro session hsession
    rcases hsessions session hsession with ⟨old, hold, -, hid, -⟩ | ⟨hid, -⟩
    · rw [← hid]
      exact (hkept.drawn old hold).trans_le hnext
    · exact hid
  · rw [hlog]
    exact hkept.swept
  · rw [hlog]
    exact hkept.removed
  · rw [hlog]
    intro place token thread id begun entered checked hplace
    refine ⟨(hkept.joined place token thread id begun entered checked hplace).1.trans_le hnext, ?_⟩
    intro session hsession hthread hid
    rcases hsessions session hsession with hstems | ⟨-, hnone⟩
    · exact hkept.of_stems hstems hplace hthread hid
    · rw [← hthread, ← hid] at hplace
      exact absurd hplace (hnone place token begun entered checked)

/-- A step that adds an entry to the log. -/
theorem SessionsKept.append (hkept : SessionsKept hash before) {event : Event Secret}
    (hlog : after.log = before.log ++ [event]) (hnext : before.next = after.next)
    (hsessions : ∀ session ∈ after.sessions, Stems session before.sessions)
    (hswept : ∀ phone write, event = .swept phone write →
      (∃ earlier, At before.log earlier (.forgot phone write)) ∧
        ∀ session ∈ after.sessions, session.phone = phone → session.revoked = true)
    (hremoved : ∀ phone write, event = .removed phone write →
      ∃ earlier, At before.log earlier (.swept phone write))
    (hjoined : ∀ token thread id begun entered checked, event = .joined token thread id begun entered checked →
      id < before.next ∧ ∀ session ∈ after.sessions, session.thread = thread → session.id = id →
        session.phone = token.phone ∧ (session.revoked = false →
          ∀ sweep write, At before.log sweep (.swept token.phone write) →
            Outlives hash before.log token begun entered checked sweep write)) : SessionsKept hash after := by
  have hlonger : before.log <+: after.log := ⟨[event], hlog.symm⟩
  have hcases : ∀ {place : ℕ} {found : Event Secret}, At after.log place found →
      At before.log place found ∨ place = before.log.length ∧ event = found := by
    intro place found hfound
    unfold At at hfound
    rw [hlog] at hfound
    exact getElem?_append_singleton.mp hfound
  refine ⟨?_, ?_, ?_, ?_⟩
  · intro session hsession
    obtain ⟨old, hold, -, hid, -⟩ := hsessions session hsession
    rw [← hnext, ← hid]
    exact hkept.drawn old hold
  · intro place phone write hplace
    rcases hcases hplace with hold | ⟨rfl, rfl⟩
    · obtain ⟨earlier, hearlier, hforgot⟩ := hkept.swept place phone write hold
      exact ⟨earlier, hearlier, getElem?_of_longer hlonger hforgot⟩
    · obtain ⟨earlier, hforgot⟩ := (hswept phone write rfl).1
      exact ⟨earlier, lt_length_of_getElem? hforgot, getElem?_of_longer hlonger hforgot⟩
  · intro place phone write hplace
    rcases hcases hplace with hold | ⟨rfl, rfl⟩
    · obtain ⟨earlier, hearlier, hfound⟩ := hkept.removed place phone write hold
      exact ⟨earlier, hearlier, getElem?_of_longer hlonger hfound⟩
    · obtain ⟨earlier, hfound⟩ := hremoved phone write rfl
      exact ⟨earlier, lt_length_of_getElem? hfound, getElem?_of_longer hlonger hfound⟩
  · intro place token thread id begun entered checked hplace
    -- What holds of the sweeps before the step holds of one in this step, as it revokes the session.
    have hextend : ∀ session ∈ after.sessions, session.phone = token.phone →
        (session.revoked = false → ∀ sweep write, At before.log sweep (.swept token.phone write) →
          Outlives hash before.log token begun entered checked sweep write) → session.revoked = false →
        ∀ sweep write, At after.log sweep (.swept token.phone write) →
          Outlives hash after.log token begun entered checked sweep write := by
      intro session hsession hphone hunrevoked hfalse sweep write hsweep
      rcases hcases hsweep with hold | ⟨-, rfl⟩
      · exact (hunrevoked hfalse sweep write hold).mono hlonger
      · exact Bool.noConfusion (hfalse.symm.trans ((hswept token.phone write rfl).2 session hsession hphone))
    rw [← hnext]
    rcases hcases hplace with hold | ⟨-, rfl⟩
    · refine ⟨(hkept.joined place token thread id begun entered checked hold).1, ?_⟩
      intro session hsession hthread hid
      obtain ⟨hphone, hunrevoked⟩ := hkept.of_stems (hsessions session hsession) hold hthread hid
      exact ⟨hphone, hextend session hsession hphone hunrevoked⟩
    · obtain ⟨hid, hall⟩ := hjoined token thread id begun entered checked rfl
      refine ⟨hid, fun session hsession hthread hsame ↦ ?_⟩
      obtain ⟨hphone, hunrevoked⟩ := hall session hsession hthread hsame
      exact ⟨hphone, hextend session hsession hphone hunrevoked⟩

/-- An entry that the session table has nothing to do with. -/
theorem SessionsKept.note (hkept : SessionsKept hash before) {event : Event Secret}
    (hlog : after.log = before.log ++ [event]) (hnext : before.next = after.next)
    (hsessions : after.sessions = before.sessions) (hswept : ∀ phone write, event ≠ .swept phone write)
    (hremoved : ∀ phone write, event ≠ .removed phone write)
    (hjoined : ∀ token thread id begun entered checked, event ≠ .joined token thread id begun entered checked) :
    SessionsKept hash after := by
  apply hkept.append hlog hnext
  · intro session hsession
    rw [hsessions] at hsession
    exact Stems.refl hsession
  · exact fun phone write hevent ↦ absurd hevent (hswept phone write)
  · exact fun phone write hevent ↦ absurd hevent (hremoved phone write)
  · exact fun token thread id begun entered checked hevent ↦ absurd hevent (hjoined token thread id begun entered checked)

end Sdrmm.Phones
