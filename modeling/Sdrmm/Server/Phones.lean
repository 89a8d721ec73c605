import Mathlib.Data.String.Basic
import Sdrmm.Lib.Interleave

/-!
# Paired phones

`server/src/phones.rs` with its `pairing.rs` and `sessions.rs`, over the tables of `store/phones.rs`.  Any
number of threads verify tokens, open and leave sessions, remove phones and pair them, each a program of
atomic steps on the shared state: a store call, a section of the `known` lock, a section of the session
table, or taking and leaving one of the two locks `stored` and `pairing`.

Beside the state stands a log of what was written and of the calls that returned, which no step reads.
-/

namespace Sdrmm.Phones

def apiProtocol : ℕ := 1
/-- Times are in nanoseconds. -/
def pairOfferTtl : ℤ := 300 * 1000000000
def offerKeep : ℤ := 24 * 3600 * 1000000000
def pairMaxFailures : ℕ := 5
def maxPhoneNameLen : ℕ := 64

/-! ## Names -/

def isWhitespace (char : Char) : Bool :=
  (9 ≤ char.val && char.val ≤ 13) || char.val = 0x20 || char.val = 0x85 || char.val = 0xa0 ||
    char.val = 0x1680 || (0x2000 ≤ char.val && char.val ≤ 0x200a) || char.val = 0x2028 ||
    char.val = 0x2029 || char.val = 0x202f || char.val = 0x205f || char.val = 0x3000

def isControl (char : Char) : Bool := char.val < 0x20 || (0x7f ≤ char.val && char.val < 0xa0)

def trim (text : List Char) : List Char :=
  ((text.dropWhile isWhitespace).reverse.dropWhile isWhitespace).reverse

def validLabel (text : List Char) (maxChars : ℕ) : Bool :=
  trim text = text && 1 ≤ text.length && text.length ≤ maxChars && !text.any isControl

def validPhoneName (name : List Char) : Bool := validLabel name maxPhoneNameLen

def trimmedName (name : String) : Option String :=
  let name := trim name.toList
  if validPhoneName name then some (String.ofList name) else none

/-! ## The tables -/

variable (Secret Digest : Type)

structure PhoneToken where
  phone : String
  secret : Secret
deriving DecidableEq

inductive PhonePlatform
  | ios
  | android
deriving DecidableEq

structure PhoneRow where
  id : String
  name : String
  platform : PhonePlatform
  secretSha256 : Digest
  createdAt : ℤ
  lastSeen : Option ℤ
deriving DecidableEq

inductive OfferState
  | live
  | used (phone : String)
  | burned
  | expired
  | cancelled
  | superseded
deriving DecidableEq

structure OfferRow where
  id : String
  code : String
  name : Option String
  createdAt : ℤ
  expiresAt : ℤ
  failures : ℕ
  state : OfferState
deriving DecidableEq

inductive OfferFailure
  | counted (left : ℕ)
  | burned
deriving DecidableEq

inductive PairWrite
  | new (row : PhoneRow Digest)
  | rotate (id name : String) (platform : PhonePlatform) (secretSha256 : Digest)

structure PairRequest where
  protocol : ℕ
  code : String
  name : String
  platform : PhonePlatform
  /-- The token of the phone that pairs again, where the text that was sent is one. -/
  rebind : Option (PhoneToken Secret)

/-! ## The shared state -/

/-- A socket of a phone, by the thread that serves it and the number the thread drew for it. -/
structure Session where
  thread : ℕ
  id : ℕ
  phone : String
  revoked : Bool
deriving DecidableEq

/-- What a pairing wrote, by which request: the offer as the write found it. -/
structure Issue where
  token : PhoneToken Secret
  offer : OfferRow
  code : String
  now : ℤ
deriving DecidableEq

inductive Event
  /-- An offer was opened. -/
  | opened (offer : OfferRow)
  /-- A wrong code was counted against an offer. -/
  | guessed (offer : String)
  /-- A pairing wrote the row of a phone. -/
  | issued (issue : Issue Secret)
  /-- The row of a phone was deleted. -/
  | deleted (phone : String)
  /-- The write at `write` reached the cache: a row that was deleted, or one that a pairing wrote. -/
  | forgot (phone : String) (write : ℕ)
  | renewed (phone : String) (write : ℕ)
  /-- The sessions of a phone were revoked by the removal whose write is at `write`. -/
  | swept (phone : String) (write : ℕ)
  /-- A removal or a pairing returned. -/
  | removed (phone : String) (write : ℕ)
  | paired (phone : String) (write : ℕ)
  /-- A removal returned that found no such phone when the log had `looked` entries. -/
  | absent (phone : String) (looked : ℕ)
  /-- A verification that began when the log had `begun` entries answered. -/
  | verified (token : PhoneToken Secret) (begun : ℕ) (accepted : Bool)
  /-- A join returned: its token was accepted by a verification that began at `begun`, it entered the session
  when the log had `entered` entries and looked for the phone in the cache when it had `checked`. -/
  | joined (token : PhoneToken Secret) (thread session begun entered checked : ℕ)
deriving DecidableEq

structure Shared where
  phones : String → Option (PhoneRow Digest)
  offers : List OfferRow
  known : String → Option Digest
  sessions : List Session
  next : ℕ
  /-- Who holds the lock. -/
  stored : Option ℕ
  pairing : Option ℕ
  log : List (Event Secret)

variable {Secret Digest}

namespace Shared

variable (shared : Shared Secret Digest)

def note (event : Event Secret) : Shared Secret Digest :=
  { shared with log := shared.log ++ [event] }

/-! ## The store -/

def openOffer (offer : OfferRow) : Bool × Shared Secret Digest :=
  let superseded := shared.offers.map fun row ↦
    if row.state = .live then { row with state := .superseded } else row
  let kept := superseded.filter fun row ↦ !(row.createdAt < offer.createdAt - offerKeep)
  if kept.any fun row ↦ row.id = offer.id then (false, shared)
  else (true, { shared with offers := kept ++ [offer] }.note (.opened offer))

def liveOffer (now : ℤ) : Option OfferRow × Shared Secret Digest :=
  let offers := shared.offers.map fun row ↦
    if row.state = .live ∧ row.expiresAt ≤ now then { row with state := .expired } else row
  (offers.find? fun row ↦ row.state = .live, { shared with offers })

/-- The rows of the table are in the order they were inserted. -/
def latestOffer : Option OfferRow :=
  shared.offers.foldl (fun latest row ↦
    match latest with
    | none => some row
    | some other => if other.createdAt ≤ row.createdAt then some row else some other) none

/-- `none` when the offer is gone. -/
def failOffer (id : String) : Option OfferFailure × Shared Secret Digest :=
  match shared.offers.find? fun row ↦ row.id = id ∧ row.state = .live with
  | none => (none, shared)
  | some found =>
    let failures := found.failures + 1
    let state := if pairMaxFailures ≤ failures then .burned else .live
    let offers := shared.offers.map fun row ↦
      if row.id = id ∧ row.state = .live then { row with failures := row.failures + 1, state } else row
    (some (if pairMaxFailures ≤ failures then .burned else .counted (pairMaxFailures - failures)),
      { shared with offers }.note (.guessed id))

def cancelOffer : Bool × Shared Secret Digest :=
  let offers := shared.offers.map fun row ↦
    if row.state = .live then { row with state := .cancelled } else row
  (shared.offers.any fun row ↦ row.state = .live, { shared with offers })

end Shared

def PairWrite.id : PairWrite Digest → String
  | .new row => row.id
  | .rotate id _ _ _ => id

inductive PairOutcome
  | written
  | offerGone
  | constraint

namespace Shared

variable (shared : Shared Secret Digest)

/-- The row that a write leaves, where `none` is a phone that is there already. -/
def written (now : ℤ) : PairWrite Digest → Option (PhoneRow Digest)
  | .new row => if (shared.phones row.id).isSome then none else some row
  | .rotate id name platform secretSha256 =>
    match shared.phones id with
    | some row => some { row with name, platform, secretSha256 }
    | none => some { id, name, platform, secretSha256, createdAt := now, lastSeen := none }

/-- One transaction: the offer is used and the row written, or neither.  `now` is the clock of the store,
and `token`, `code` and `asked` are the token made for the request, its code and its clock. -/
def pairWithOffer (offer : String) (write : PairWrite Digest) (now : ℤ) (token : PhoneToken Secret)
    (code : String) (asked : ℤ) : PairOutcome × Shared Secret Digest :=
  match shared.offers.find? fun row ↦ row.id = offer ∧ row.state = .live with
  | none => (.offerGone, shared)
  | some found =>
    match shared.written now write with
    | none => (.constraint, shared)
    | some row =>
      let offers := shared.offers.map fun row ↦
        if row.id = offer ∧ row.state = .live then { row with state := .used write.id } else row
      let phones := Function.update shared.phones write.id (some row)
      (.written, { shared with offers, phones }.note (.issued { token, offer := found, code, now := asked }))

/-- `false` when there is no such phone. -/
def deletePhone (id : String) : Bool × Shared Secret Digest :=
  if (shared.phones id).isSome then
    (true, { shared with phones := Function.update shared.phones id none }.note (.deleted id))
  else (false, shared)

/-! ## The cache and the locks -/

def remember (id : String) (secretSha256 : Digest) : Shared Secret Digest :=
  { shared with known := Function.update shared.known id (some secretSha256) }

def forget (id : String) : Shared Secret Digest :=
  { shared with known := Function.update shared.known id none }

@[simp]
theorem remember_known_self (id : String) (digest : Digest) : (shared.remember id digest).known id = some digest :=
  Function.update_self ..

theorem remember_known_of_ne {id phone : String} (hne : phone ≠ id) (digest : Digest) :
    (shared.remember id digest).known phone = shared.known phone :=
  Function.update_of_ne hne ..

@[simp]
theorem forget_known_self (id : String) : (shared.forget id).known id = none := Function.update_self ..

theorem forget_known_of_ne {id phone : String} (hne : phone ≠ id) :
    (shared.forget id).known phone = shared.known phone :=
  Function.update_of_ne hne ..

def takeStored (thread : ℕ) : Option (Shared Secret Digest) :=
  if shared.stored.isNone then some { shared with stored := some thread } else none

def leaveStored : Shared Secret Digest := { shared with stored := none }

def takePairing (thread : ℕ) : Option (Shared Secret Digest) :=
  if shared.pairing.isNone then some { shared with pairing := some thread } else none

def leavePairing : Shared Secret Digest := { shared with pairing := none }

/-! ## The session table -/

/-- Whether the session is the first of its phone. -/
def enter (session : Session) : Bool × Shared Secret Digest :=
  (!shared.sessions.any fun other ↦ other.phone = session.phone,
    { shared with sessions := shared.sessions ++ [session] })

/-- Whether the session was the last of its phone. -/
def leave (thread id : ℕ) (phone : String) : Bool × Shared Secret Digest :=
  let rest := shared.sessions.filter fun session ↦
    !(session.thread = thread ∧ session.id = id ∧ session.phone = phone)
  (rest.length < shared.sessions.length && !rest.any fun session ↦ session.phone = phone,
    { shared with sessions := rest })

def revoke (phone : String) : Shared Secret Digest :=
  { shared with
    sessions := shared.sessions.map fun session ↦
      if session.phone = phone then { session with revoked := true } else session }

end Shared

/-! ## The calls -/

inductive PairError
  | noOffer
  | expired
  | wrongCode (left : ℕ)
  | burned
  | protocol (phone server : ℕ)
  | name
  /-- The store answered an error. -/
  | store
deriving DecidableEq

inductive Verified
  | paired
  | unknown
  | refused
deriving DecidableEq

structure PairResponse (Secret Digest : Type) where
  phone : PhoneRow Digest
  token : PhoneToken Secret
  serverId : String
  serverName : String
  protocol : ℕ

structure PairingOfferStatus where
  id : String
  code : Option String
  state : OfferState
  expiresAt : ℤ
  failures : ℕ

/-- What a call is given besides its request: the server's names, and the numbers it draws. -/
structure Drawn (Secret : Type) where
  serverId : String
  serverName : String
  phone : String
  secret : Secret
  /-- The clock of the store at the write. -/
  written : ℤ

/-- An offer as it is made, with the id and the code that were drawn for it. -/
def newOffer (id code : String) (name : Option String) (now : ℤ) : OfferRow where
  id := id
  code := code
  name := name
  createdAt := now
  expiresAt := now + pairOfferTtl
  failures := 0
  state := .live

section Programs

variable [DecidableEq Digest] (hash : Secret → Digest)

def matchesSecret (token : PhoneToken Secret) (stored : Digest) : Bool := hash token.secret = stored

/-- A program of a thread, which tries so often for a lock. -/
abbrev Run (Secret Digest α : Type) := Prog (Shared Secret Digest) α

def read {α : Type} (f : Shared Secret Digest → α) : Run Secret Digest α :=
  Prog.access fun shared ↦ (f shared, shared)

def change (f : Shared Secret Digest → Shared Secret Digest) : Run Secret Digest Unit :=
  Prog.access fun shared ↦ ((), f shared)

variable (thread tries : ℕ)

/-- The digest of a phone, with the length of the log when the call began. -/
def secretOf (id : String) : Run Secret Digest (ℕ × Option Digest) := do
  let (begun, cached) ← read fun shared ↦ (shared.log.length, shared.known id)
  match cached with
  | some secret => return (begun, some secret)
  | none =>
    Prog.acquire (Shared.takeStored · thread) tries
    let row ← read fun shared ↦ shared.phones id
    match row with
    | some row =>
      change (Shared.remember · id row.secretSha256)
      change Shared.leaveStored
      return (begun, some row.secretSha256)
    | none =>
      change Shared.leaveStored
      return (begun, none)

/-- The answer, with the length of the log when the call began. -/
def verifyCached (token : PhoneToken Secret) : Run Secret Digest (ℕ × Verified) :=
  Prog.access fun shared ↦
    let verified := match shared.known token.phone with
      | some stored => if matchesSecret hash token stored then Verified.paired else Verified.refused
      | none => Verified.unknown
    ((shared.log.length, verified),
      shared.note (.verified token shared.log.length (verified = .paired)))

def verify (token : PhoneToken Secret) : Run Secret Digest (ℕ × Bool) := do
  let (begun, stored) ← secretOf thread tries token.phone
  let accepted := stored.any (matchesSecret hash token)
  change (Shared.note · (.verified token begun accepted))
  return (begun, accepted)

/-- The check of a request: the cache first, then the store. -/
def authenticate (token : PhoneToken Secret) : Run Secret Digest (ℕ × Bool) := do
  let (begun, verified) ← verifyCached hash token
  match verified with
  | .paired => return (begun, true)
  | .refused => return (begun, false)
  | .unknown => verify hash thread tries token

/-- The number of the session, and whether it is the first of its phone. -/
def join (token : PhoneToken Secret) (begun : ℕ) : Run Secret Digest (ℕ × Bool) := do
  let id ← Prog.access fun shared ↦ (shared.next, { shared with next := shared.next + 1 })
  let (entered, first) ← Prog.access fun shared ↦
    let result := shared.enter { thread, id, phone := token.phone, revoked := false }
    ((shared.log.length, result.1), result.2)
  let (checked, cached) ← read fun shared ↦ (shared.log.length, shared.known token.phone)
  if cached.isNone then
    change (Shared.revoke · token.phone)
    change (Shared.note · (.joined token thread id begun entered checked))
    return (id, first)
  else
    change (Shared.note · (.joined token thread id begun entered checked))
    return (id, first)

/-- A socket: it authenticates, joins, and may leave. -/
def socket (token : PhoneToken Secret) (leaves : Bool) : Run Secret Digest Unit := do
  let (begun, accepted) ← authenticate hash thread tries token
  if accepted then
    let (id, _) ← join thread token begun
    if leaves then
      let _ ← Prog.access (Shared.leave · thread id token.phone)
      return ()
    else return ()
  else return ()

/-- `false` when there is no such phone. -/
def remove (id : String) : Run Secret Digest Bool := do
  Prog.acquire (Shared.takeStored · thread) tries
  let (write, found) ← Prog.access fun shared ↦
    ((shared.log.length, (shared.deletePhone id).1), (shared.deletePhone id).2)
  if found then
    change fun shared ↦ (shared.forget id).note (.forgot id write)
    change Shared.leaveStored
    change fun shared ↦ (shared.revoke id).note (.swept id write)
    change (Shared.note · (.removed id write))
    return true
  else
    change Shared.leaveStored
    change (Shared.note · (.absent id write))
    return false

def createOffer (id code : String) (name : Option String) (now : ℤ) :
    Run Secret Digest (Except PairError OfferRow) :=
  match name.mapM trimmedName with
  | none => return .error .name
  | some name => do
    let opened ← Prog.access (Shared.openOffer · (newOffer id code name now))
    return if opened then .ok (newOffer id code name now) else .error .store

def cancelOffer : Run Secret Digest Bool := Prog.access Shared.cancelOffer

def offerStatus (now : ℤ) : Run Secret Digest (Option PairingOfferStatus) := do
  let _ ← Prog.access (Shared.liveOffer · now)
  let latest ← read Shared.latestOffer
  return latest.map fun offer ↦
    { id := offer.id, code := if offer.state = .live then some offer.code else none, state := offer.state,
      expiresAt := offer.expiresAt, failures := offer.failures }

/-- The phone whose token a request brings, if it is accepted. -/
def rebound : Option (PhoneToken Secret) → Run Secret Digest (Option String)
  | none => return none
  | some token => do
    let (_, accepted) ← verify hash thread tries token
    return if accepted then some token.phone else none

/-- Why there is no offer to pair with. -/
def offerError (latest : Option OfferRow) : PairError :=
  match latest.map OfferRow.state with
  | some .expired => .expired
  | some .burned => .burned
  | _ => .noOffer

/-- The write and what follows it: the digest is cached in the same section of the lock. -/
def pairWrite (request : PairRequest Secret) (drawn : Drawn Secret) (now : ℤ) (offer : OfferRow)
    (write : PairWrite Digest) : Run Secret Digest (Except PairError (PairResponse Secret Digest)) := do
  let token : PhoneToken Secret := { phone := write.id, secret := drawn.secret }
  Prog.acquire (Shared.takeStored · thread) tries
  let (at₀, outcome) ← Prog.access fun shared ↦
    let result := shared.pairWithOffer offer.id write drawn.written token request.code now
    ((shared.log.length, result.1), result.2)
  match outcome with
  | .offerGone => do
    change Shared.leaveStored
    return .error .noOffer
  | .constraint => do
    change Shared.leaveStored
    return .error .store
  | .written => do
    change fun shared ↦ (shared.remember write.id (hash drawn.secret)).note (.renewed write.id at₀)
    change Shared.leaveStored
    let row ← read fun shared ↦ shared.phones write.id
    change (Shared.note · (.paired write.id at₀))
    match row with
    | none => return .error .store
    | some phone =>
      return .ok { phone, token, serverId := drawn.serverId, serverName := drawn.serverName,
                   protocol := apiProtocol }

/-- One attempt to pair, under the lock `pairing`. -/
def attempt (request : PairRequest Secret) (name : String) (drawn : Drawn Secret) (now : ℤ) :
    Run Secret Digest (Except PairError (PairResponse Secret Digest)) := do
  let live ← Prog.access (Shared.liveOffer · now)
  match live with
  | none => do
    let latest ← read Shared.latestOffer
    return .error (offerError latest)
  | some offer =>
    if request.code = offer.code then do
      let known ← rebound hash thread tries request.rebind
      let write : PairWrite Digest := match known with
        | some id => .rotate id name request.platform (hash drawn.secret)
        | none => .new
          { id := drawn.phone, name, platform := request.platform, secretSha256 := hash drawn.secret,
            createdAt := now, lastSeen := none }
      pairWrite hash thread tries request drawn now offer write
    else do
      let failure ← Prog.access (Shared.failOffer · offer.id)
      return .error (match failure with
        | some (.counted left) => .wrongCode left
        | some .burned => .burned
        | none => .noOffer)

def pair (request : PairRequest Secret) (drawn : Drawn Secret) (now : ℤ) :
    Run Secret Digest (Except PairError (PairResponse Secret Digest)) :=
  if request.protocol ≠ apiProtocol then return .error (.protocol request.protocol apiProtocol)
  else match trimmedName request.name with
    | none => return .error .name
    | some name => do
      Prog.acquire (Shared.takePairing · thread) tries
      let answer ← attempt hash thread tries request name drawn now
      change Shared.leavePairing
      return answer

/-! ## Threads -/

inductive Call (Secret : Type)
  | verifyCached (token : PhoneToken Secret)
  | verify (token : PhoneToken Secret)
  | socket (token : PhoneToken Secret) (leaves : Bool)
  | remove (phone : String)
  | createOffer (id code : String) (name : Option String) (now : ℤ)
  | cancelOffer
  | offerStatus (now : ℤ)
  | pair (request : PairRequest Secret) (drawn : Drawn Secret) (now : ℤ)

def Call.program : Call Secret → Run Secret Digest Unit
  | .verifyCached token => do let _ ← Phones.verifyCached hash token
  | .verify token => do let _ ← Phones.verify hash thread tries token
  | .socket token leaves => Phones.socket hash thread tries token leaves
  | .remove phone => do let _ ← Phones.remove thread tries phone
  | .createOffer id code name now => do let _ ← Phones.createOffer id code name now
  | .cancelOffer => do let _ ← Phones.cancelOffer
  | .offerStatus now => do let _ ← Phones.offerStatus now
  | .pair request drawn now => do let _ ← Phones.pair hash thread tries request drawn now

/-- Each thread makes its calls one after the other. -/
def serve (calls : ℕ → List (Call Secret)) (number : ℕ) : Run Secret Digest Unit :=
  Prog.each (calls number) (Call.program hash number tries)

/-- The state after the steps of a schedule. -/
def reached (calls : ℕ → List (Call Secret)) (start : Shared Secret Digest) (schedule : List ℕ) :
    Shared Secret Digest :=
  (Prog.run (serve hash tries calls) start schedule).2

end Programs

end Sdrmm.Phones
