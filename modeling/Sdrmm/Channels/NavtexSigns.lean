import Sdrmm.Channels.Navtex

/-!
# What a NAVTEX decoder hears

The text that is received does not depend on the messages that are made of it.  `Reception.feed` gives the
signs of a soft bit: characters, line breaks, repairs, and where a message in progress is given up because of
silence or errors.  `run_eq` is that the decoder makes its messages of these signs, one after the other.
-/

namespace Sdrmm.Navtex

open Lib.Checked

inductive Sign
  | repaired
  | char (c : Char)
  | lineBreak
  | flush
  deriving DecidableEq

/-! ## Hearing -/

namespace Reception

/-- The sign of a character of a row. -/
def signOf (ch : Char) : List Sign :=
  if ch = '\x00' then [] else if ch = '\r' ∨ ch = '\n' then [.lineBreak] else [.char ch]

def emitChar (reception : Reception) (code : UInt8) : Reception × List Sign :=
  if code = alpha ∨ code = beta ∨ code = rep ∨ code = char32 then (reception, [])
  else
    match ita2For code with
    | none => (reception, [])
    | some ita2 =>
        if ita2 = figsCode then ({ reception with sinceChar := 0, figs := true }, [])
        else if ita2 = ltrsCode then ({ reception with sinceChar := 0, figs := false }, [])
        else
          ({ reception with sinceChar := 0 },
            signOf ((if reception.figs then figures else letters).getD ita2.toNat '\x00'))

def decodeSlot (reception : Reception) : Reception × List Sign :=
  match Decoder.decided reception.bits with
  | some (code, repaired) =>
      let (next, signs) := { reception with errorRun := reception.errorRun - 1 }.emitChar code
      (next, (if repaired then [.repaired] else []) ++ signs)
  | none =>
      if maxErrorRun < reception.errorRun + 2 then
        ({ reception with errorRun := reception.errorRun + 2, state := .phasing usizeMax, figs := false },
          [.flush])
      else ({ reception with errorRun := reception.errorRun + 2 }, [])

def listen (reception : Reception) (soft : ℚ) : Reception × List Sign :=
  ({ reception with
      bits := reception.bits.drop 1 ++ [soft]
      sinceChar := min (reception.sinceChar + 1) usizeMax },
    if min (reception.sinceChar + 1) usizeMax = idleFlushBits then [.flush] else [])

def feed (reception : Reception) (soft : ℚ) : Reception × List Sign :=
  let (reception, idle) := reception.listen soft
  match reception.state with
  | .phasing sinceHit =>
      let hit := codeAt reception.bits rxBase = alpha ∧ codeAt reception.bits prevBase = rep
      let sinceHit := min (sinceHit + 1) usizeMax
      if hit then
        if sinceHit = phasingPeriod then
          ({ reception with state := .reading 0 false, errorRun := 0 }, idle)
        else ({ reception with state := .phasing 0 }, idle)
      else ({ reception with state := .phasing sinceHit }, idle)
  | .reading sinceSlot nextIsRx =>
      if sinceSlot + 1 < charBits then
        ({ reception with state := .reading (sinceSlot + 1) nextIsRx }, idle)
      else if nextIsRx then
        let (reception, signs) := { reception with state := .reading 0 (!nextIsRx) }.decodeSlot
        (reception, idle ++ signs)
      else ({ reception with state := .reading 0 (!nextIsRx) }, idle)

/-- The reception after some soft bits, with the signs of all. -/
def run (reception : Reception) : List ℚ → Reception × List Sign
  | [] => (reception, [])
  | soft :: rest =>
      let (next, signs) := reception.feed soft
      let (last, more) := next.run rest
      (last, signs ++ more)

end Reception

/-- What a decoder hears of some soft bits. -/
def signs (softs : List ℚ) : List Sign := (({} : Reception).run softs).2

/-! ## Writing -/

namespace Page

/-- A page after one more sign. -/
def take (page : Page) : Sign → Except Halt (Page × List NavtexMessage)
  | .repaired => pure ({ page with errorsCorrected := min (page.errorsCorrected + 1) u32Max }, [])
  | .char c => { page with newline := false, tail := page.tail.drop 1 ++ [c] }.pushText c
  | .lineBreak => page.write '\n'
  | .flush => pure (page.emitMessage false)

def takeAll (page : Page) : List Sign → Except Halt (Page × List NavtexMessage)
  | [] => pure (page, [])
  | sign :: rest => do
      let (next, out) ← page.take sign
      let (last, more) ← next.takeAll rest
      pure (last, out ++ more)

theorem takeAll_cons (page : Page) (sign : Sign) (rest : List Sign) :
    page.takeAll (sign :: rest) =
      page.take sign >>= fun first ↦ first.1.takeAll rest >>= fun last ↦
        pure (last.1, first.2 ++ last.2) := rfl

theorem takeAll_singleton (page : Page) (sign : Sign) : page.takeAll [sign] = page.take sign := by
  rw [takeAll_cons]
  cases page.take sign with
  | error halt => rfl
  | ok first => exact congrArg (fun out ↦ Except.ok (first.1, out)) (List.append_nil first.2)

theorem takeAll_append (page : Page) (first second : List Sign) :
    page.takeAll (first ++ second) =
      page.takeAll first >>= fun early ↦ early.1.takeAll second >>= fun late ↦
        pure (late.1, early.2 ++ late.2) := by
  induction first generalizing page with
  | nil =>
    change page.takeAll second = page.takeAll second >>= fun late ↦ pure (late.1, late.2)
    cases page.takeAll second with
    | error halt => rfl
    | ok late => rfl
  | cons sign rest ih =>
    rw [List.cons_append, takeAll_cons, takeAll_cons]
    cases page.take sign with
    | error halt => rfl
    | ok first =>
      simp only [ok_bind, ih]
      cases first.1.takeAll rest with
      | error halt => rfl
      | ok early =>
        simp only [ok_bind, pure, Except.pure]
        cases early.1.takeAll second with
        | error halt => rfl
        | ok late =>
          simp only [ok_bind, List.append_assoc]

/-- A character of a row is written as its sign. -/
theorem write_eq (page : Page) (ch : Char) : page.write ch = page.takeAll (Reception.signOf ch) := by
  unfold Reception.signOf
  split_ifs with hnull hbreak
  · rw [write, if_pos hnull]
    rfl
  · rw [takeAll_singleton, take]
    unfold write
    rw [if_neg hnull, if_pos hbreak]
    rfl
  · rw [takeAll_singleton, take, write, if_neg hnull, if_neg hbreak]

end Page

/-! ## The decoder hears and writes -/

/-- A reception with the page that was written meanwhile. -/
def joined (reception : Reception) (written : Except Halt (Page × List NavtexMessage)) :
    Except Halt (Decoder × List NavtexMessage) :=
  written >>= fun result ↦ pure ({ toReception := reception, toPage := result.1 }, result.2)

namespace Decoder

theorem emitChar_eq (decoder : Decoder) (code : UInt8) :
    decoder.emitChar code = joined (decoder.toReception.emitChar code).1
      (decoder.toPage.takeAll (decoder.toReception.emitChar code).2) := by
  unfold emitChar Reception.emitChar
  by_cases hcontrol : code = alpha ∨ code = beta ∨ code = rep ∨ code = char32
  · rw [if_pos hcontrol, if_pos hcontrol]
    rfl
  · rw [if_neg hcontrol, if_neg hcontrol]
    cases hcode : ita2For code with
    | none => rfl
    | some ita2 =>
      by_cases hfigs : ita2 = figsCode
      · simp only [if_pos hfigs]
        rfl
      by_cases hltrs : ita2 = ltrsCode
      · simp only [if_neg hfigs, if_pos hltrs]
        rfl
      simp only [if_neg hfigs, if_neg hltrs, Page.write_eq]
      rfl

theorem decodeSlot_eq (decoder : Decoder) :
    decoder.decodeSlot = joined decoder.toReception.decodeSlot.1
      (decoder.toPage.takeAll decoder.toReception.decodeSlot.2) := by
  unfold decodeSlot Reception.decodeSlot
  cases hdecided : decided decoder.bits with
  | none =>
    by_cases hlost : maxErrorRun < decoder.errorRun + 2
    · simp only [if_pos hlost, Page.takeAll_singleton]
      rfl
    · simp only [if_neg hlost]
      rfl
  | some found =>
    obtain ⟨code, repaired⟩ := found
    simp only [emitChar_eq]
    cases repaired with
    | false => rfl
    | true =>
      rw [Page.takeAll_append, if_pos rfl, if_pos rfl, Page.takeAll_singleton]
      simp only [Page.take, pure, Except.pure, ok_bind, List.nil_append]
      rw [joined]
      cases Page.takeAll _ _ with
      | error halt => rfl
      | ok written => rfl

theorem listen_eq (decoder : Decoder) (soft : ℚ) :
    ∃ idle, decoder.toReception.listen soft = ((decoder.listen soft).1.toReception, idle) ∧
      decoder.toPage.takeAll idle = .ok ((decoder.listen soft).1.toPage, (decoder.listen soft).2) := by
  unfold listen Reception.listen
  by_cases hidle : min (decoder.sinceChar + 1) usizeMax = idleFlushBits
  · rw [if_pos hidle, if_pos hidle]
    exact ⟨[.flush], rfl, Page.takeAll_singleton _ _⟩
  · rw [if_neg hidle, if_neg hidle]
    exact ⟨[], rfl, rfl⟩

theorem feed_eq (decoder : Decoder) (soft : ℚ) :
    decoder.feed soft = joined (decoder.toReception.feed soft).1
      (decoder.toPage.takeAll (decoder.toReception.feed soft).2) := by
  obtain ⟨idle, hheard, hidle⟩ := decoder.listen_eq soft
  unfold feed Reception.feed
  rw [hheard]
  clear hheard
  revert hidle
  obtain ⟨heard, out⟩ := decoder.listen soft
  intro hidle
  cases hstate : heard.state with
  | phasing sinceHit =>
    simp only [hstate]
    split_ifs <;> simp only [hidle] <;> rfl
  | reading sinceSlot nextIsRx =>
    simp only [hstate]
    by_cases hslot : sinceSlot + 1 < charBits
    · simp only [if_pos hslot, hidle]
      rfl
    cases nextIsRx with
    | false =>
      simp only [if_neg hslot, if_neg Bool.false_ne_true, hidle]
      rfl
    | true =>
      simp only [if_neg hslot, if_true, decodeSlot_eq, Page.takeAll_append, hidle, ok_bind]
      cases Page.takeAll _ _ with
      | error halt => rfl
      | ok written => rfl

/-- The decoder makes its messages of what it hears. -/
theorem run_eq (decoder : Decoder) (softs : List ℚ) :
    decoder.run softs = joined (decoder.toReception.run softs).1
      (decoder.toPage.takeAll (decoder.toReception.run softs).2) := by
  induction softs generalizing decoder with
  | nil => rfl
  | cons soft rest ih =>
    rw [run, feed_eq, Reception.run, Page.takeAll_append]
    cases hfirst : decoder.toPage.takeAll (decoder.toReception.feed soft).2 with
    | error halt => rfl
    | ok first =>
      simp only [joined, ok_bind, pure, Except.pure, ih]
      cases first.1.takeAll _ with
      | error halt => rfl
      | ok last => rfl

end Decoder

end Sdrmm.Navtex
