import Sdrmm.Channels.NavtexFraming

/-!
# NAVTEX slot by slot

What `Reception` does with the seven soft bits of one slot.  A slot in which nothing is read only moves the history
on; the slot of a second copy is read against the slot five before it.  Two phasing pairs bring a fresh reception
into step.
-/

namespace Sdrmm.Navtex

/-- The word of a slot. -/
def word (slot : List ℚ) : UInt8 := codeAt slot 0

/-- The time since the last character after so many more bits. -/
def waited (since : ℕ) : ℕ → ℕ
  | 0 => since
  | count + 1 => waited (min (since + 1) usizeMax) count

/-- The signs of a pause that grows by so many bits. -/
def pauses (since : ℕ) : ℕ → List Sign
  | 0 => []
  | count + 1 =>
    (if min (since + 1) usizeMax = idleFlushBits then [.flush] else []) ++
      pauses (min (since + 1) usizeMax) count

theorem waited_succ (since count : ℕ) :
    waited since (count + 1) = min (waited since count + 1) usizeMax := by
  induction count generalizing since with
  | zero => rfl
  | succ count ih => exact ih (min (since + 1) usizeMax)

theorem pauses_succ (since count : ℕ) :
    pauses since (count + 1) = pauses since count ++
      if min (waited since count + 1) usizeMax = idleFlushBits then [.flush] else [] := by
  induction count generalizing since with
  | zero => exact List.append_nil _
  | succ count ih =>
    rw [pauses, ih, ← List.append_assoc]
    rfl

/-- Whether the last two slots of some signs are a phasing pair. -/
def hits (positive : List Bool) : Bool :=
  codeOf (fun i ↦ positive.getD (rxBase + i) false) == alpha &&
    codeOf (fun i ↦ positive.getD (prevBase + i) false) == rep

/-- The state some signs lead to, if they do not lead to it before their end. -/
def locate (window : List Bool) (sinceHit : ℕ) : List Bool → Option State
  | [] => some (.phasing sinceHit)
  | positive :: rest =>
    let next := window.drop 1 ++ [positive]
    let since := min (sinceHit + 1) usizeMax
    if hits next then
      if since = phasingPeriod then if rest.isEmpty then some (.reading 0 false) else none
      else locate next 0 rest
    else locate next since rest

theorem codeAt_eq (bits : List ℚ) (base : ℕ) :
    codeAt bits base = codeOf fun i ↦ (bits.map fun soft ↦ decide (0 < soft)).getD (base + i) false := by
  unfold codeAt
  congr 1
  funext i
  rw [List.getD_eq_getElem?_getD, List.getD_eq_getElem?_getD, List.getElem?_map]
  cases bits[base + i]? with
  | none => rfl
  | some soft => rfl

namespace Reception

theorem run_append (reception : Reception) (first second : List ℚ) :
    reception.run (first ++ second) = (((reception.run first).1.run second).1,
      (reception.run first).2 ++ ((reception.run first).1.run second).2) := by
  induction first generalizing reception with
  | nil => rfl
  | cons soft first ih =>
    rw [List.cons_append, run_cons, ih, run_cons]
    exact congrArg (Prod.mk _) (List.append_assoc _ _ _).symm

/-- The history after some bits that only move it on. -/
def moved (reception : Reception) (softs : List ℚ) : Reception :=
  { reception with
    bits := (reception.bits ++ softs).drop softs.length
    sinceChar := waited reception.sinceChar softs.length }

theorem moved_snoc (reception : Reception) (hbits : reception.bits ≠ []) (softs : List ℚ) (soft : ℚ) :
    reception.moved (softs ++ [soft]) = ((reception.moved softs).listen soft).1 := by
  have hlength : softs.length + 1 ≤ (reception.bits ++ softs).length := by
    have hpos := List.length_pos_of_ne_nil hbits
    rw [List.length_append]
    omega
  have hdrop : (reception.bits ++ (softs ++ [soft])).drop (softs.length + 1) =
      ((reception.bits ++ softs).drop softs.length).drop 1 ++ [soft] := by
    rw [List.drop_drop, ← List.append_assoc, List.drop_append_of_le_length hlength]
  unfold moved listen
  simp only [List.length_append, List.length_singleton, waited_succ, hdrop]

/-- Within a slot nothing is read. -/
theorem run_within (reception : Reception) (hbits : reception.bits ≠ []) {since : ℕ} {nextIsRx : Bool}
    (hstate : reception.state = .reading since nextIsRx) (softs : List ℚ)
    (hwithin : since + softs.length < charBits) :
    reception.run softs =
      ({ reception.moved softs with state := .reading (since + softs.length) nextIsRx },
        pauses reception.sinceChar softs.length) := by
  induction softs using List.reverseRecOn with
  | nil =>
    cases reception
    cases hstate
    simp [run, moved, waited, pauses]
  | append_singleton softs soft ih =>
    rw [List.length_append, List.length_singleton, ← Nat.add_assoc] at hwithin
    rw [run_snoc, ih (Nat.lt_of_succ_lt hwithin), List.length_append, List.length_singleton, pauses_succ,
      moved_snoc reception hbits]
    unfold feed
    simp only [listen, if_pos hwithin]
    rfl

/-- The reception behind a slot, before it may be read. -/
def slotted (reception : Reception) (slot : List ℚ) (nextIsRx : Bool) : Reception :=
  { reception.moved slot with state := .reading 0 nextIsRx }

theorem run_slot (reception : Reception) (hbits : reception.bits ≠ []) {nextIsRx : Bool}
    (hstate : reception.state = .reading 0 nextIsRx) {slot : List ℚ} (hslot : slot.length = charBits) :
    reception.run slot =
      if nextIsRx then
        ((reception.slotted slot false).decodeSlot.1,
          pauses reception.sinceChar charBits ++ (reception.slotted slot false).decodeSlot.2)
      else (reception.slotted slot true, pauses reception.sinceChar charBits) := by
  rcases List.eq_nil_or_concat slot with rfl | ⟨front, last, rfl⟩
  · cases hslot
  rw [List.concat_eq_append] at hslot ⊢
  rw [List.length_append, List.length_singleton] at hslot
  have hfront : front.length = 6 := Nat.succ.inj hslot
  have hwithin : 0 + front.length < charBits := by
    rw [hfront]
    decide
  have hlast : ¬0 + front.length + 1 < charBits := by
    rw [hfront]
    decide
  rw [run_snoc, run_within reception hbits hstate front hwithin]
  unfold slotted
  rw [moved_snoc reception hbits, ← hslot, pauses_succ]
  cases nextIsRx with
  | false =>
    unfold feed
    simp only [listen, if_neg hlast, if_neg Bool.false_ne_true]
    rfl
  | true =>
    unfold feed
    simp only [listen, if_neg hlast, if_true, List.append_assoc]
    rfl

/-! ## Phasing -/

theorem moved_cons (reception : Reception) (hbits : reception.bits ≠ []) (soft : ℚ) (softs : List ℚ) :
    reception.moved (soft :: softs) = (reception.listen soft).1.moved softs := by
  have hdrop : (reception.bits ++ soft :: softs).drop (softs.length + 1) =
      (reception.bits.drop 1 ++ [soft] ++ softs).drop softs.length := by
    match hsplit : reception.bits with
    | [] => exact absurd hsplit hbits
    | first :: bits =>
      rw [List.append_assoc]
      rfl
  unfold moved listen
  simp only [List.length_cons, hdrop]
  rfl

theorem map_listen (reception : Reception) (soft : ℚ) :
    (reception.listen soft).1.bits.map (fun soft ↦ decide (0 < soft)) =
      (reception.bits.map fun soft ↦ decide (0 < soft)).drop 1 ++ [decide (0 < soft)] := by
  unfold listen
  rw [List.map_append, List.map_drop]
  rfl

theorem feed_phasing {reception : Reception} {sinceHit : ℕ} (hstate : reception.state = .phasing sinceHit)
    (soft : ℚ) :
    reception.feed soft =
      ((if hits ((reception.listen soft).1.bits.map fun soft ↦ decide (0 < soft)) then
          if min (sinceHit + 1) usizeMax = phasingPeriod then
            { (reception.listen soft).1 with state := .reading 0 false, errorRun := 0 }
          else { (reception.listen soft).1 with state := .phasing 0 }
        else { (reception.listen soft).1 with state := .phasing (min (sinceHit + 1) usizeMax) }),
        (reception.listen soft).2) := by
  have hheard : (reception.listen soft).1.state = .phasing sinceHit := hstate
  have hhits : hits ((reception.listen soft).1.bits.map fun soft ↦ decide (0 < soft)) = true ↔
      codeAt (reception.listen soft).1.bits rxBase = alpha ∧
        codeAt (reception.listen soft).1.bits prevBase = rep := by
    rw [codeAt_eq, codeAt_eq, hits, Bool.and_eq_true, beq_iff_eq, beq_iff_eq]
  unfold feed
  simp only [hheard, hhits]
  split_ifs <;> rfl

/-- A reception in phasing is led by the signs alone. -/
theorem run_phasing (reception : Reception) (hbits : reception.bits ≠ []) {sinceHit : ℕ}
    (hstate : reception.state = .phasing sinceHit) (hrun : reception.errorRun = 0) {softs : List ℚ} {state : State}
    (hlocate : locate (reception.bits.map fun soft ↦ decide (0 < soft)) sinceHit
      (softs.map fun soft ↦ decide (0 < soft)) = some state) :
    reception.run softs =
      ({ reception.moved softs with state := state }, pauses reception.sinceChar softs.length) := by
  induction softs generalizing reception sinceHit with
  | nil =>
    obtain rfl := Option.some.inj hlocate
    cases reception
    cases hstate
    simp [run, moved, waited, pauses]
  | cons soft softs ih =>
    rw [run_cons, moved_cons reception hbits, List.length_cons, pauses]
    rw [List.map_cons, locate, ← map_listen reception] at hlocate
    have hheard : (reception.listen soft).1.bits ≠ [] := by
      simp [listen]
    rw [feed_phasing hstate]
    by_cases hhit : hits ((reception.listen soft).1.bits.map fun soft ↦ decide (0 < soft))
    · by_cases hperiod : min (sinceHit + 1) usizeMax = phasingPeriod
      · simp only [hhit, hperiod, if_true] at hlocate ⊢
        cases softs with
        | nil =>
          obtain rfl := Option.some.inj hlocate
          simp [run, moved, waited, pauses, listen, hrun]
        | cons next softs => cases hlocate
      · simp only [hhit, hperiod, if_true, if_false] at hlocate ⊢
        rw [ih { (reception.listen soft).1 with state := .phasing 0 } hheard rfl hrun hlocate]
        rfl
    · rw [if_neg hhit] at hlocate ⊢
      rw [ih { (reception.listen soft).1 with state := .phasing (min (sinceHit + 1) usizeMax) } hheard rfl
        hrun hlocate]
      rfl

end Reception

/-! ## Words -/

set_option maxRecDepth 4000 in
theorem positive_of_codeOf : ∀ a b c d e f g : Bool,
    [a, b, c, d, e, f, g] = (List.range charBits).map fun i ↦
      (codeOf fun i ↦ [a, b, c, d, e, f, g].getD i false).toNat.testBit i := by
  decide

/-- The signs of a slot are the bits of its word. -/
theorem positive_slot {slot : List ℚ} (hslot : slot.length = charBits) :
    slot.map (fun soft ↦ decide (0 < soft)) = (List.range charBits).map (word slot).toNat.testBit := by
  match slot, hslot with
  | [a, b, c, d, e, f, g], _ =>
    rw [word, codeAt_eq]
    simp only [Nat.zero_add]
    exact positive_of_codeOf _ _ _ _ _ _ _

/-- The signs of a phasing pair. -/
def pairSigns : List Bool :=
  (List.range charBits).map rep.toNat.testBit ++ (List.range charBits).map alpha.toNat.testBit

theorem locate_two_pairs :
    locate (List.replicate history false) usizeMax (pairSigns ++ pairSigns) = some (.reading 0 false) := by
  rfl

/-- Two phasing pairs bring a fresh reception into step. -/
theorem run_pairs {first second third fourth : List ℚ} (hfirst : first.length = charBits)
    (hsecond : second.length = charBits) (hthird : third.length = charBits)
    (hfourth : fourth.length = charBits) (hrep : word first = rep) (halpha : word second = alpha)
    (hagain : word third = rep) (hlast : word fourth = alpha) :
    ({} : Reception).run [first, second, third, fourth].flatten =
      ({ ({} : Reception).moved [first, second, third, fourth].flatten with state := .reading 0 false },
        []) := by
  have hsigns : ([first, second, third, fourth].flatten.map fun soft ↦ decide (0 < soft)) =
      pairSigns ++ pairSigns := by
    simp only [List.flatten_cons, List.flatten_nil, List.map_append, List.append_nil,
      positive_slot, hfirst, hsecond, hthird, hfourth, hrep, halpha, hagain, hlast, pairSigns,
      List.append_assoc]
  have hblank : (({} : Reception).bits.map fun soft ↦ decide (0 < soft)) = List.replicate history false := by
    rfl
  have hlocate := locate_two_pairs
  rw [← hblank, ← hsigns] at hlocate
  have hlength : [first, second, third, fourth].flatten.length = 28 := by
    simp [hfirst, hsecond, hthird, hfourth, charBits]
  rw [Reception.run_phasing {} (List.cons_ne_nil _ _) rfl rfl hlocate, hlength]
  rfl

/-! ## Windows -/

theorem codeOf_congr {first second : ℕ → Bool} (hsame : ∀ i < charBits, first i = second i) :
    codeOf first = codeOf second := by
  apply List.foldl_ext
  intro code i hi
  rw [hsame i (List.mem_range.mp hi)]

/-- Seven soft bits of the history are those of the slot that stands there. -/
theorem getD_flatten {front back : List (List ℚ)} {slot : List ℚ} {base i : ℕ}
    (hbase : front.flatten.length = base) (hi : i < slot.length) :
    (front ++ slot :: back).flatten.getD (base + i) 0 = slot.getD i 0 := by
  rw [List.flatten_append, List.flatten_cons, List.getD_eq_getElem?_getD,
    List.getElem?_append_right (by omega), ← hbase, Nat.add_sub_cancel_left, List.getElem?_append_left hi,
    ← List.getD_eq_getElem?_getD]

/-- The word of the soft bits of two slots added up. -/
def summed (dx rx : List ℚ) : UInt8 := codeOf fun i ↦ decide (0 < dx.getD i 0 + rx.getD i 0)

/-- What is decided of a character from the slots of its two copies. -/
def settle (dx rx : List ℚ) : Option (UInt8 × Bool) :=
  if valid (word rx) then some (word rx, false)
  else if valid (word dx) then some (word dx, true)
  else if valid (summed dx rx) then some (summed dx rx, true)
  else none

/-- The oldest and the newest slot of the history decide. -/
theorem decided_window {dx rx : List ℚ} {between : List (List ℚ)} (hdx : dx.length = charBits)
    (hrx : rx.length = charBits) (hbetween : between.flatten.length = rxBase - charBits) :
    Decoder.decided (dx :: between ++ [rx]).flatten = settle dx rx := by
  have hold : ∀ i < charBits, (dx :: between ++ [rx]).flatten.getD (dxBase + i) 0 = dx.getD i 0 := by
    intro i hi
    have hempty : ([] : List (List ℚ)).flatten.length = dxBase := rfl
    exact getD_flatten hempty (hdx ▸ hi)
  have hbase : (dx :: between).flatten.length = rxBase := by
    rw [List.flatten_cons, List.length_append, hdx, hbetween]
    rfl
  have hnew : ∀ i < charBits, (dx :: between ++ [rx]).flatten.getD (rxBase + i) 0 = rx.getD i 0 := by
    intro i hi
    exact getD_flatten hbase (hrx ▸ hi)
  have hword : ∀ (slot : List ℚ) (base : ℕ),
      (∀ i < charBits, (dx :: between ++ [rx]).flatten.getD (base + i) 0 = slot.getD i 0) →
        codeAt (dx :: between ++ [rx]).flatten base = word slot := by
    intro slot base hsame
    unfold word codeAt
    apply codeOf_congr
    intro i hi
    rw [hsame i hi, Nat.zero_add]
  have hcombined : codeOf (fun i ↦ decide (0 < (dx :: between ++ [rx]).flatten.getD (dxBase + i) 0 +
      (dx :: between ++ [rx]).flatten.getD (rxBase + i) 0)) =
        summed dx rx := by
    apply codeOf_congr
    intro i hi
    rw [hold i hi, hnew i hi]
  unfold Decoder.decided settle
  simp only [hword rx rxBase hnew, hword dx dxBase hold, hcombined]

end Sdrmm.Navtex
