import Sdrmm.Server.PhonesRuns

/-!
# The phone calls, one by one

Sessions, removals, offers and pairings, each with the assertions that hold between its steps.
-/

namespace Sdrmm.Phones

variable {Secret Digest : Type} {hash : Secret → Digest} {before after : Shared Secret Digest} {thread : ℕ}

/-! ## Sessions -/

/-- A step that changes the session table only. -/
theorem Good.of_sessions (hgood : Good hash before) (hkept : SessionsKept hash after)
    (hlog : after.log = before.log) (hsame : SameStored before after)
    (hoffers : after.offers = before.offers) : Good hash after := by
  refine ⟨?_, hkept, ?_⟩
  · apply hgood.cache.same_log hlog hsame.phones
    · rw [hsame.known]
      exact fun _ _ ↦ Or.inl
    · intro hfree
      rw [hsame.stored] at hfree
      unfold Agrees
      rw [hsame.known, hsame.phones]
      exact hgood.cache.agree hfree
  · rw [hlog]
    exact fun hdistinct ↦ (hgood.offers hdistinct).same hoffers hlog

/-- The number is drawn, and no session of the thread that joined has it. -/
def Unjoined (thread id : ℕ) (shared : Shared Secret Digest) : Prop :=
  id < shared.next ∧ ∀ place token begun entered checked,
    ¬At shared.log place (.joined token thread id begun entered checked)

theorem stable_unjoined (id : ℕ) : Stable hash thread (Unjoined thread id) := by
  intro other hne before after _ _ hmoves ⟨hid, hnone⟩
  refine ⟨hid.trans_le hmoves.next, ?_⟩
  intro place token begun entered checked hplace
  rcases hmoves.joined place token thread id begun entered checked hplace with hold | hthread
  · exact hnone place token begun entered checked hold
  · exact hne hthread.symm

/-- A session of the thread in the table, after a step of another, was there before. -/
theorem Moves.stems {other : ℕ} (hmoves : Moves other before after) (hne : other ≠ thread) {session : Session}
    (hsession : session ∈ after.sessions) (hthread : session.thread = thread) :
    Stems session before.sessions :=
  (hmoves.sessions session hsession).resolve_right fun hother ↦ hne (hother.symm.trans hthread)

def NoSession (thread id : ℕ) (shared : Shared Secret Digest) : Prop :=
  ∀ session ∈ shared.sessions, session.thread = thread → session.id ≠ id

theorem stable_noSession (id : ℕ) : Stable hash thread (NoSession thread id) := by
  intro other hne before after _ _ hmoves hnone session hsession hthread hid
  obtain ⟨old, hold, hsameThread, hsameId, -⟩ := hmoves.stems hne hsession hthread
  exact hnone old hold (hsameThread.trans hthread) (hsameId.trans hid)

/-- The session of the thread with this number is one of the token's phone, and `allowed` says of each sweep of
the phone why the session is not revoked, where it is not. -/
def Guarded (thread id : ℕ) (token : PhoneToken Secret) (allowed : ℕ → ℕ → List (Event Secret) → Prop)
    (shared : Shared Secret Digest) : Prop :=
  ∀ session ∈ shared.sessions, session.thread = thread → session.id = id →
    session.phone = token.phone ∧ (session.revoked = false →
      ∀ sweep write, At shared.log sweep (.swept token.phone write) → allowed sweep write shared.log)

theorem stable_guarded (id : ℕ) (token : PhoneToken Secret) {allowed : ℕ → ℕ → List (Event Secret) → Prop}
    (hallowed : ∀ sweep write, Lasting (allowed sweep write)) :
    Stable hash thread (Guarded thread id token allowed) := by
  intro other hne before after _ _ hmoves hguarded session hsession hthread hid
  obtain ⟨old, hold, hsameThread, hsameId, hphone, hrevoked⟩ := hmoves.stems hne hsession hthread
  obtain ⟨holdPhone, hunrevoked⟩ := hguarded old hold (hsameThread.trans hthread) (hsameId.trans hid)
  have hsamePhone : session.phone = token.phone := hphone.symm.trans holdPhone
  refine ⟨hsamePhone, fun hfalse sweep write hsweep ↦ ?_⟩
  rcases hmoves.swept sweep token.phone write hsweep with hbefore | hall
  · apply hallowed sweep write _ _ hmoves.log
    apply hunrevoked _ sweep write hbefore
    rw [← Bool.not_eq_true]
    exact fun htrue ↦ Bool.noConfusion (hfalse.symm.trans (hrevoked htrue))
  · exact Bool.noConfusion (hfalse.symm.trans (hall session hsession hsamePhone))

/-- A session that finds its phone in the cache outlives a removal only as its token was issued again, or as the
phone was put back after the token was checked. -/
theorem Good.outlives (hgood : Good hash before) {token : PhoneToken Secret} {digest : Digest}
    {begun entered sweep write place : ℕ}
    (hfound : IssuedSince hash before.log begun token.phone (hash token.secret))
    (hknown : before.known token.phone = some digest) (hforgot : At before.log place (.forgot token.phone write))
    (hsweep : sweep < entered) :
    Outlives hash before.log token begun entered before.log.length sweep write := by
  classical
  obtain ⟨later, hlater, issue, hissue, hphone, -⟩ :=
    (hgood.cache.known token.phone digest hknown place (lt_length_of_getElem? hforgot) write).1 hforgot
  have hexists : ∃ first, write < first ∧
      ∃ issue, At before.log first (.issued issue) ∧ issue.token.phone = token.phone :=
    ⟨later, hlater, issue, hissue, hphone⟩
  obtain ⟨hwrite, first, hfirst, hfirstPhone⟩ := Nat.find_spec hexists
  have hdeleted := (hgood.cache.forgot place token.phone write hforgot).2
  obtain ⟨between, hbetween, hreached⟩ := hgood.cache.refilled write _ token.phone (hash first.token.secret)
    hwrite hdeleted ⟨first, hfirst, hfirstPhone, rfl⟩
  by_cases hbegun : between < begun
  · exact Or.inl ((hfound between hbegun write).1 hreached)
  · refine Or.inr ⟨hsweep, Nat.find hexists, (not_lt.mp hbegun).trans hbetween.le,
      lt_length_of_getElem? hfirst, hwrite, ⟨first, hfirst, hfirstPhone⟩, ?_⟩
    intro earlier other hafter hbefore hother hsame
    exact Nat.find_min hexists hbefore ⟨hafter, other, hother, hsame⟩

section Join

variable (token : PhoneToken Secret) (begun : ℕ)

theorem stable_found : Stable hash thread fun shared ↦
    Found hash begun token.phone (hash token.secret) shared.log :=
  (lasting_found begun token.phone (hash token.secret)).stable

/-- A number that is drawn is new. -/
theorem follows_draw : Follows hash thread
    (fun shared ↦ Found hash begun token.phone (hash token.secret) shared.log)
    (Prog.access fun shared ↦ (shared.next, { shared with next := shared.next + 1 }))
    fun id shared ↦ Found hash begun token.phone (hash token.secret) shared.log ∧
      Unjoined thread id shared ∧ NoSession thread id shared := by
  apply Prog.Leads.access (stable_found token begun)
  · exact fun id ↦ (stable_found token begun).and ((stable_unjoined id).and (stable_noSession id))
  intro shared hgood hbefore
  have hstems : ∀ session ∈ shared.sessions, Stems session shared.sessions := fun _ ↦ Stems.refl
  refine ⟨?_, ?_, hbefore, ⟨Nat.lt_succ_self _, ?_⟩, ?_⟩
  · exact hgood.of_sessions
      (hgood.sessions.same_log rfl (Nat.le_succ _) fun session hsession ↦ Or.inl (hstems session hsession))
      rfl ⟨rfl, rfl, rfl⟩ rfl
  · exact Moves.same_log rfl (Or.inr ⟨rfl, rfl, rfl⟩)
      (fun session hsession ↦ Or.inl (hstems session hsession)) (Nat.le_succ _)
  · intro place token begun entered checked hplace
    exact lt_irrefl _ (hgood.sessions.joined place token thread _ begun entered checked hplace).1
  · exact fun session hsession _ ↦ Nat.ne_of_lt (hgood.sessions.drawn session hsession)

/-- The session that is entered comes after the sweeps in the log. -/
theorem follows_enter (id : ℕ) : Follows hash thread
    (fun shared ↦ Found hash begun token.phone (hash token.secret) shared.log ∧
      Unjoined thread id shared ∧ NoSession thread id shared)
    (Prog.access fun shared ↦
      let result := shared.enter { thread, id, phone := token.phone, revoked := false }
      ((shared.log.length, result.1), result.2))
    fun result shared ↦ Found hash begun token.phone (hash token.secret) shared.log ∧
      Unjoined thread id shared ∧ Guarded thread id token (fun sweep _ _ ↦ sweep < result.1) shared := by
  apply Prog.Leads.access
    ((stable_found token begun).and ((stable_unjoined id).and (stable_noSession id)))
  · exact fun result ↦ (stable_found token begun).and ((stable_unjoined id).and
      (stable_guarded id token fun sweep _ ↦ lasting_const (sweep < result.1)))
  rintro shared hgood ⟨hbefore, hunjoined, hnone⟩
  have hcases : ∀ session ∈ shared.sessions ++ [⟨thread, id, token.phone, false⟩],
      Stems session shared.sessions ∨ session = ⟨thread, id, token.phone, false⟩ := by
    intro session hsession
    rw [List.mem_append, List.mem_singleton] at hsession
    exact hsession.imp Stems.refl fun hnew ↦ hnew
  refine ⟨?_, ?_, hbefore, hunjoined, ?_⟩
  · refine hgood.of_sessions (hgood.sessions.same_log rfl le_rfl fun session hsession ↦ ?_) rfl ⟨rfl, rfl, rfl⟩ rfl
    refine (hcases session hsession).imp (fun hold ↦ hold) ?_
    rintro rfl
    exact hunjoined
  · refine Moves.same_log rfl (Or.inr ⟨rfl, rfl, rfl⟩) (fun session hsession ↦ ?_) le_rfl
    refine (hcases session hsession).imp (fun hold ↦ hold) ?_
    rintro rfl
    rfl
  · intro session hsession hthread hid
    rcases hcases session hsession with ⟨old, hold, hsameThread, hsameId, -⟩ | rfl
    · exact absurd (hsameId.trans hid) (hnone old hold (hsameThread.trans hthread))
    · exact ⟨rfl, fun _ sweep write hsweep ↦ lt_length_of_getElem? hsweep⟩

theorem lasting_outlives (entered checked sweep write : ℕ) :
    Lasting fun log ↦ Outlives hash log token begun entered checked sweep write :=
  fun _ _ hlonger houtlives ↦ houtlives.mono hlonger

/-- A session whose phone is in the cache has its reason to be there. -/
theorem follows_look (id entered : ℕ) : Follows hash thread
    (fun shared ↦ Found hash begun token.phone (hash token.secret) shared.log ∧
      Unjoined thread id shared ∧ Guarded thread id token (fun sweep _ _ ↦ sweep < entered) shared)
    (read fun shared ↦ (shared.log.length, shared.known token.phone))
    fun result shared ↦ Unjoined thread id shared ∧ Guarded thread id token (fun sweep write log ↦
      result.2.isSome → Outlives hash log token begun entered result.1 sweep write) shared := by
  have hallowed : ∀ (result : ℕ × Option Digest) (sweep write : ℕ), Lasting fun log ↦
      result.2.isSome → Outlives hash log token begun entered result.1 sweep write :=
    fun result sweep write log longer hlonger himp hsome ↦
      lasting_outlives token begun entered result.1 sweep write log longer hlonger (himp hsome)
  apply follows_read ((stable_found token begun).and ((stable_unjoined id).and
    (stable_guarded id token fun sweep _ ↦ lasting_const (sweep < entered))))
  · exact fun result ↦ (stable_unjoined id).and (stable_guarded id token (hallowed result))
  rintro shared hgood ⟨hfound, hunjoined, hguarded⟩
  refine ⟨hunjoined, fun session hsession hthread hid ↦ ?_⟩
  obtain ⟨hphone, hunrevoked⟩ := hguarded session hsession hthread hid
  refine ⟨hphone, fun hfalse sweep write hsweep hsome ↦ ?_⟩
  obtain ⟨digest, hknown⟩ := Option.isSome_iff_exists.mp hsome
  obtain ⟨place, -, hforgot⟩ := hgood.sessions.swept sweep token.phone write hsweep
  exact hgood.outlives hfound.2 hknown hforgot (hunrevoked hfalse sweep write hsweep)

/-- The sessions of a phone that is not in the cache are revoked. -/
theorem follows_revoke (id : ℕ) {allowed before : ℕ → ℕ → List (Event Secret) → Prop}
    (hbefore : ∀ sweep write, Lasting (before sweep write))
    (hallowed : ∀ sweep write, Lasting (allowed sweep write)) :
    Follows hash thread (fun shared ↦ Unjoined thread id shared ∧ Guarded thread id token before shared)
      (change (Shared.revoke · token.phone))
      fun _ shared ↦ Unjoined thread id shared ∧ Guarded thread id token allowed shared := by
  apply follows_change ((stable_unjoined id).and (stable_guarded id token hbefore))
    ((stable_unjoined id).and (stable_guarded id token hallowed))
  rintro shared hgood ⟨hunjoined, hguarded⟩
  refine ⟨?_, ?_, hunjoined, ?_⟩
  · exact hgood.of_sessions
      (hgood.sessions.same_log rfl le_rfl fun session hsession ↦ Or.inl (Stems.revoke hsession).1)
      rfl ⟨rfl, rfl, rfl⟩ rfl
  · exact Moves.same_log rfl (Or.inr ⟨rfl, rfl, rfl⟩)
      (fun session hsession ↦ Or.inl (Stems.revoke hsession).1) le_rfl
  · intro session hsession hthread hid
    obtain ⟨⟨old, hold, hsameThread, hsameId, hsamePhone, -⟩, hrevoked⟩ := Stems.revoke hsession
    have hphone := (hguarded old hold (hsameThread.trans hthread) (hsameId.trans hid)).1
    rw [hsamePhone] at hphone
    exact ⟨hphone, fun hfalse ↦ Bool.noConfusion (hfalse.symm.trans (hrevoked hphone))⟩

/-- The join returns. -/
theorem follows_joined (id entered checked : ℕ) : Follows hash thread
    (fun shared ↦ Unjoined thread id shared ∧ Guarded thread id token (fun sweep write log ↦
      Outlives hash log token begun entered checked sweep write) shared)
    (change (Shared.note · (.joined token thread id begun entered checked))) fun _ _ ↦ True := by
  apply follows_change ((stable_unjoined id).and
    (stable_guarded id token (lasting_outlives token begun entered checked))) stable_true
  rintro shared hgood ⟨hunjoined, hguarded⟩
  refine ⟨hgood.note (fun _ hfalse ↦ hfalse) (fun _ _ ↦ ⟨nofun, nofun⟩) trivial nofun nofun ?_ (fun hfalse ↦ hfalse), ?_, trivial⟩
  · rintro _ _ _ _ _ _ ⟨⟩
    exact ⟨hunjoined.1, hguarded⟩
  · refine Moves.returned nofun nofun ?_
    rintro _ _ _ _ _ _ ⟨⟩
    rfl

theorem follows_join : Follows hash thread
    (fun shared ↦ Found hash begun token.phone (hash token.secret) shared.log)
    (join thread token begun) fun _ _ ↦ True := by
  unfold join
  refine Prog.Leads.bind (follows_draw token begun) fun id ↦ ?_
  refine Prog.Leads.bind (follows_enter token begun id) ?_
  rintro ⟨entered, first⟩
  refine Prog.Leads.bind (follows_look token begun id entered) ?_
  rintro ⟨checked, cached⟩
  cases cached with
  | none =>
    have hnone : ∀ sweep write : ℕ, Lasting fun log ↦ (none : Option Digest).isSome →
        Outlives hash log token begun entered checked sweep write :=
      fun _ _ _ _ _ _ hsome ↦ nomatch hsome
    have hall : ∀ sweep write : ℕ, Lasting fun log ↦
        Outlives hash log token begun entered checked sweep write :=
      lasting_outlives token begun entered checked
    refine Prog.Leads.bind (follows_revoke token id hnone hall) fun _ ↦ ?_
    refine Prog.Leads.bind (follows_joined token begun id entered checked) fun _ ↦ ?_
    exact Prog.Leads.pure _ stable_true fun _ _ _ ↦ trivial
  | some digest =>
    refine Prog.Leads.bind (Prog.Leads.imp (follows_joined token begun id entered checked) ?_
      fun _ _ _ hafter ↦ hafter) fun _ ↦ ?_
    · rintro shared - ⟨hunjoined, hguarded⟩
      refine ⟨hunjoined, fun session hsession hthread hid ↦ ?_⟩
      obtain ⟨hphone, hunrevoked⟩ := hguarded session hsession hthread hid
      exact ⟨hphone, fun hfalse sweep write hsweep ↦ hunrevoked hfalse sweep write hsweep rfl⟩
    · exact Prog.Leads.pure _ stable_true fun _ _ _ ↦ trivial

end Join

theorem follows_leave (id : ℕ) (phone : String) :
    Follows hash thread (fun _ ↦ True) (Prog.access (Shared.leave · thread id phone)) fun _ _ ↦ True := by
  apply Prog.Leads.access stable_true fun _ ↦ stable_true
  intro shared hgood _
  have hstems : ∀ session ∈ (shared.leave thread id phone).2.sessions, Stems session shared.sessions :=
    fun session hsession ↦ Stems.refl (List.mem_filter.mp hsession).1
  refine ⟨?_, ?_, trivial⟩
  · exact hgood.of_sessions
      (hgood.sessions.same_log rfl le_rfl fun session hsession ↦ Or.inl (hstems session hsession))
      rfl ⟨rfl, rfl, rfl⟩ rfl
  · exact Moves.same_log rfl (Or.inr ⟨rfl, rfl, rfl⟩)
      (fun session hsession ↦ Or.inl (hstems session hsession)) le_rfl

theorem follows_socket [DecidableEq Digest] (tries : ℕ) (token : PhoneToken Secret) (leaves : Bool) :
    Follows hash thread (fun _ ↦ True) (socket hash thread tries token leaves) fun _ _ ↦ True := by
  unfold socket
  refine Prog.Leads.bind (follows_authenticate tries token) ?_
  rintro ⟨begun, accepted⟩
  cases accepted with
  | false => exact Prog.Leads.pure _ (lasting_answered token begun _).stable fun _ _ _ ↦ trivial
  | true =>
    refine Prog.Leads.bind (Prog.Leads.imp (follows_join token begun) ?_ fun _ _ _ hafter ↦ hafter) ?_
    · exact fun _ _ hanswered ↦ ⟨hanswered.1, hanswered.2 rfl⟩
    rintro ⟨id, first⟩
    cases leaves with
    | false => exact Prog.Leads.pure _ stable_true fun _ _ _ ↦ trivial
    | true =>
      refine Prog.Leads.bind (follows_leave id token.phone) fun _ ↦ ?_
      exact Prog.Leads.pure _ stable_true fun _ _ _ ↦ trivial

/-! ## Removals -/

section Remove

variable (id : String)

/-- The state of a removal once it looked for the phone. -/
def Deleted (hash : Secret → Digest) (thread : ℕ) (id : String) (write : ℕ) :
    Bool → Shared Secret Digest → Prop
  | true, shared => (Owned thread {id} {write} shared ∧ shared.phones id = none) ∧
      At shared.log write (.deleted id)
  | false, shared => Owned thread ∅ ∅ shared ∧
      write ≤ shared.log.length ∧ Departed hash shared.log write write id

theorem lasting_departed (looked : ℕ) (phone : String) : Lasting fun log ↦
    looked ≤ log.length ∧ Departed hash log looked looked phone :=
  fun _ _ hlonger hdeparted ↦
    ⟨hdeparted.1.trans hlonger.length_le, hdeparted.2.mono hdeparted.1 hlonger⟩

theorem stable_deleted (write : ℕ) (found : Bool) : Stable hash thread (Deleted hash thread id write found) := by
  cases found with
  | true => exact (stable_row {id} {write} id none).and (lasting_at write (.deleted id)).stable
  | false => exact (stable_owned ∅ ∅).and (lasting_departed write id).stable

/-- The row of the phone goes, or there was none. -/
theorem follows_delete : Follows hash thread
    (fun shared ↦ Owned thread ∅ ∅ shared ∧ True)
    (Prog.access fun shared ↦
      ((shared.log.length, (shared.deletePhone id).1), (shared.deletePhone id).2))
    fun result ↦ Deleted hash thread id result.1 result.2 := by
  refine Prog.Leads.access ((stable_owned ∅ ∅).and stable_true) (fun result ↦ stable_deleted id _ _) ?_
  rintro shared hgood ⟨howned, -⟩
  obtain ⟨hagrees, hsettled⟩ := howned.done
  unfold Shared.deletePhone
  split_ifs with hrow
  · have hlast : At (shared.log ++ [.deleted id]) shared.log.length (.deleted id) :=
      getElem?_append_singleton.mpr (Or.inr ⟨rfl, rfl⟩)
    refine ⟨⟨?_, ?_, fun hdistinct ↦ ?_⟩, ?_, ⟨⟨?_, ?_, ?_⟩, Function.update_self ..⟩, hlast⟩
    · refine hgood.cache.write rfl (Or.inl ⟨rfl, rfl⟩) rfl rfl ?_ hsettled
      exact fun hfree ↦ nomatch howned.stored.symm.trans hfree
    · exact hgood.sessions.note rfl rfl rfl nofun nofun nofun
    · exact OffersKept.note (hgood.offers hdistinct.of_append) rfl rfl nofun nofun nofun
    · exact Moves.append rfl (Or.inl (May.of_held howned.stored)) (fun _ ↦ Stems.refl) rfl nofun nofun
    · exact howned.stored
    · intro phone hphone digest hdigest
      obtain ⟨row, hfound, hsame⟩ := hagrees phone digest hdigest
      exact ⟨row, (Function.update_of_ne hphone ..).trans hfound, hsame⟩
    · intro write hwrite phone hdeleted
      rcases getElem?_append_singleton.mp hdeleted with hold | ⟨hnew, -⟩
      · obtain ⟨place, hforgot⟩ := hsettled write phone hold
        exact ⟨place, getElem?_of_longer (List.prefix_append _ _) hforgot⟩
      · exact absurd hnew hwrite
  · have hnone : shared.phones id = none := Option.not_isSome_iff_eq_none.mp hrow
    refine ⟨hgood, Moves.refl, howned, le_rfl, le_rfl, ?_⟩
    intro place _ digest hissued
    obtain ⟨write, hwrite, hdeleted⟩ := hgood.cache.gone id hnone place digest hissued
    obtain ⟨earlier, hforgot⟩ := hsettled write id hdeleted
    exact ⟨write, hwrite, earlier, lt_length_of_getElem? hforgot, hforgot⟩

theorem lasting_forgot (write : ℕ) : Lasting fun log : List (Event Secret) ↦
    ∃ place, At log place (.forgot id write) :=
  fun _ _ hlonger ⟨place, hforgot⟩ ↦ ⟨place, getElem?_of_longer hlonger hforgot⟩

/-- The removal reaches the cache. -/
theorem follows_forget (write : ℕ) : Follows hash thread (Deleted hash thread id write true)
    (change fun shared ↦ (shared.forget id).note (.forgot id write))
    fun _ shared ↦ Owned thread ∅ ∅ shared ∧ ∃ place, At shared.log place (.forgot id write) := by
  apply follows_change (stable_deleted id write true) ((stable_owned ∅ ∅).and (lasting_forgot id write).stable)
  rintro shared hgood ⟨⟨howned, hrow⟩, hdeleted⟩
  have hlast : At (shared.log ++ [.forgot id write]) shared.log.length (.forgot id write) :=
    getElem?_append_singleton.mpr (Or.inr ⟨rfl, rfl⟩)
  have hknown : ∀ phone digest, ((shared.forget id).note (.forgot id write)).known phone = some digest →
      phone ≠ id ∧ shared.known phone = some digest := by
    intro phone digest hdigest
    change (shared.forget id).known phone = some digest at hdigest
    by_cases hsame : phone = id
    · subst hsame
      rw [Shared.forget_known_self] at hdigest
      cases hdigest
    · rw [Shared.forget_known_of_ne _ hsame] at hdigest
      exact ⟨hsame, hdigest⟩
  refine ⟨⟨?_, ?_, fun hdistinct ↦ ?_⟩, ?_, ⟨howned.stored, ?_, ?_⟩, shared.log.length, hlast⟩
  · refine hgood.cache.append rfl (fun _ hfalse ↦ hfalse) hdeleted rfl ?_ ?_
    · intro phone digest hdigest
      obtain ⟨hne, hold⟩ := hknown phone digest hdigest
      refine (hgood.cache.known phone digest hold).append ?_ nofun
      rintro other ⟨⟩
      exact hne rfl
    · exact fun hfree ↦ nomatch howned.stored.symm.trans hfree
  · exact hgood.sessions.note rfl rfl rfl nofun nofun nofun
  · exact OffersKept.note (hgood.offers hdistinct.of_append) rfl rfl nofun nofun nofun
  · exact Moves.append rfl (Or.inl (May.of_held howned.stored)) (fun _ ↦ Stems.refl) rfl nofun nofun
  · intro phone _ digest hdigest
    obtain ⟨hne, hold⟩ := hknown phone digest hdigest
    exact howned.agrees phone hne digest hold
  · intro other _ phone hplace
    have hold : At shared.log other (.deleted phone) :=
      (getElem?_append_singleton.mp hplace).resolve_right fun hnew ↦ nomatch hnew.2
    by_cases hsame : other = write
    · subst hsame
      cases hold.symm.trans hdeleted
      exact ⟨shared.log.length, hlast⟩
    · obtain ⟨place, hforgot⟩ := howned.settled other hsame phone hold
      exact ⟨place, getElem?_of_longer (List.prefix_append _ _) hforgot⟩

theorem lasting_swept (write : ℕ) : Lasting fun log : List (Event Secret) ↦
    ∃ place, At log place (.swept id write) :=
  fun _ _ hlonger ⟨place, hswept⟩ ↦ ⟨place, getElem?_of_longer hlonger hswept⟩

/-- The sessions of the phone are revoked. -/
theorem follows_sweep (write : ℕ) : Follows hash thread
    (fun shared ↦ ∃ place, At shared.log place (.forgot id write))
    (change fun shared ↦ (shared.revoke id).note (.swept id write))
    fun _ shared ↦ (∃ place, At shared.log place (.forgot id write)) ∧
      ∃ place, At shared.log place (.swept id write) := by
  apply follows_change (lasting_forgot id write).stable
    ((lasting_forgot id write).and (lasting_swept id write)).stable
  rintro shared hgood ⟨place, hforgot⟩
  have hrevoked : ∀ phone other, (Event.swept id write : Event Secret) = .swept phone other →
      ∀ session ∈ (shared.revoke id).sessions, session.phone = phone → session.revoked = true := by
    rintro phone other ⟨⟩ session hsession
    exact (Stems.revoke hsession).2
  refine ⟨⟨?_, ?_, fun hdistinct ↦ ?_⟩, ?_, ⟨place, getElem?_of_longer (List.prefix_append _ _) hforgot⟩,
    shared.log.length, getElem?_append_singleton.mpr (Or.inr ⟨rfl, rfl⟩)⟩
  · exact hgood.cache.note rfl (fun _ hfalse ↦ hfalse) nofun nofun trivial rfl rfl rfl
  · refine hgood.sessions.append rfl rfl (fun _ hsession ↦ (Stems.revoke hsession).1) ?_ nofun nofun
    rintro phone other ⟨⟩
    exact ⟨⟨place, hforgot⟩, hrevoked id write rfl⟩
  · exact OffersKept.note (hgood.offers hdistinct.of_append) rfl rfl nofun nofun nofun
  · exact Moves.append rfl (Or.inr ⟨⟨rfl, rfl, rfl⟩, nofun⟩) (fun _ hsession ↦ (Stems.revoke hsession).1) rfl
      hrevoked nofun

theorem follows_remove (tries : ℕ) :
    Follows hash thread (fun _ ↦ True) (remove thread tries id) fun _ _ ↦ True := by
  unfold remove
  refine Prog.Leads.bind (follows_takeStored (lasting_const True) tries) fun _ ↦ ?_
  refine Prog.Leads.bind (follows_delete id) ?_
  rintro ⟨write, found⟩
  cases found with
  | true =>
    refine Prog.Leads.bind (follows_forget id write) fun _ ↦ ?_
    refine Prog.Leads.bind (follows_leaveStored (lasting_forgot id write)) fun _ ↦ ?_
    refine Prog.Leads.bind (follows_sweep id write) fun _ ↦ ?_
    refine Prog.Leads.bind (follows_change (Q := fun _ ↦ True)
      ((lasting_forgot id write).and (lasting_swept id write)).stable stable_true ?_) fun _ ↦ ?_
    · rintro shared hgood ⟨hforgot, hswept⟩
      refine ⟨?_, Moves.returned nofun nofun nofun, trivial⟩
      refine hgood.note (fun _ hfalse ↦ hfalse) (fun _ _ ↦ ⟨nofun, nofun⟩) hforgot nofun ?_ nofun (fun hfalse ↦ hfalse)
      rintro phone other ⟨⟩
      exact hswept
    · exact Prog.Leads.pure _ stable_true fun _ _ _ ↦ trivial
  | false =>
    refine Prog.Leads.bind (follows_leaveStored (lasting_departed write id)) fun _ ↦ ?_
    refine Prog.Leads.bind (follows_change (Q := fun _ ↦ True)
      (lasting_departed write id).stable stable_true ?_) fun _ ↦ ?_
    · rintro shared hgood ⟨hwrite, hdeparted⟩
      refine ⟨?_, Moves.returned nofun nofun nofun, trivial⟩
      exact hgood.note (fun _ hfalse ↦ hfalse) (fun _ _ ↦ ⟨nofun, nofun⟩) (hdeparted.of_le hwrite) nofun nofun nofun
        (fun hfalse ↦ hfalse)
    · exact Prog.Leads.pure _ stable_true fun _ _ _ ↦ trivial

end Remove

end Sdrmm.Phones
