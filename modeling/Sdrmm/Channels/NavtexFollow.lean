import Sdrmm.Channels.NavtexSlots

/-!
# A NAVTEX run told by its codes

`follow` is what the codes of the slots tell by themselves.  A reception of which every second copy tells its code
hears the same, whatever else arrives, as long as few slots are lost.
-/

namespace Sdrmm.Navtex

open Lib.Checked

/-- What stands in a slot that carries no code. -/
def Synth.idleSlot (i : ℕ) : UInt8 := if i % 2 = 0 then rep else alpha

/-! ## Reading a character -/

namespace Reception

/-- Two receptions that have heard the same. -/
structure Alike (first second : Reception) : Prop where
  state : first.state = second.state
  figs : first.figs = second.figs
  sinceChar : first.sinceChar = second.sinceChar

theorem emitChar_silent (reception : Reception) {code : UInt8} (hcode : ita2For code = none) :
    reception.emitChar code = (reception, []) := by
  unfold emitChar
  rw [hcode]
  split_ifs <;> rfl

/-- A character changes neither the history nor the state nor the count of errors. -/
theorem emitChar_kept (reception : Reception) (code : UInt8) :
    (reception.emitChar code).1.bits = reception.bits ∧
      (reception.emitChar code).1.state = reception.state ∧
      (reception.emitChar code).1.errorRun = reception.errorRun := by
  unfold emitChar
  by_cases hcontrol : code = alpha ∨ code = beta ∨ code = rep ∨ code = char32
  · rw [if_pos hcontrol]
    exact ⟨rfl, rfl, rfl⟩
  · rw [if_neg hcontrol]
    cases ita2For code with
    | none => exact ⟨rfl, rfl, rfl⟩
    | some ita2 =>
      simp only
      split_ifs <;> exact ⟨rfl, rfl, rfl⟩

theorem emitChar_alike {first second : Reception} (halike : Alike first second) (code : UInt8) :
    Alike (first.emitChar code).1 (second.emitChar code).1 ∧
      (first.emitChar code).2 = (second.emitChar code).2 := by
  unfold emitChar
  by_cases hcontrol : code = alpha ∨ code = beta ∨ code = rep ∨ code = char32
  · rw [if_pos hcontrol, if_pos hcontrol]
    exact ⟨halike, rfl⟩
  · rw [if_neg hcontrol, if_neg hcontrol]
    cases ita2For code with
    | none => exact ⟨halike, rfl⟩
    | some ita2 =>
      simp only [halike.figs]
      split_ifs
      all_goals exact ⟨⟨halike.state, rfl, rfl⟩, rfl⟩

end Reception

/-- What is decided of a slot tells the code that was sent there: the code itself, or nothing where no
character was sent. -/
def Tells (code : UInt8) (decided : Option (UInt8 × Bool)) : Prop :=
  (∃ repaired, decided = some (code, repaired)) ∨
    ita2For code = none ∧ ∀ other repaired, decided = some (other, repaired) → ita2For other = none

theorem decodeSlot_some {reception : Reception} {code : UInt8} {repaired : Bool}
    (hdecided : Decoder.decided reception.bits = some (code, repaired)) :
    reception.decodeSlot =
      (({ reception with errorRun := reception.errorRun - 1 }.emitChar code).1,
        (if repaired then [.repaired] else []) ++
          ({ reception with errorRun := reception.errorRun - 1 }.emitChar code).2) := by
  rw [Reception.decodeSlot, hdecided]

theorem decodeSlot_none {reception : Reception} (hdecided : Decoder.decided reception.bits = none)
    (herrors : reception.errorRun + 2 ≤ maxErrorRun) :
    reception.decodeSlot = ({ reception with errorRun := reception.errorRun + 2 }, []) := by
  rw [Reception.decodeSlot, hdecided]
  exact if_neg (not_lt.mpr herrors)

/-- A slot that tells its code is read as the code would be, but for repairs and errors. -/
theorem decodeSlot_tells {reception : Reception} {code : UInt8}
    (htells : Tells code (Decoder.decided reception.bits))
    (herrors : Decoder.decided reception.bits = none → reception.errorRun + 2 ≤ maxErrorRun) :
    Reception.Alike reception.decodeSlot.1 (reception.emitChar code).1 ∧
      heard reception.decodeSlot.2 = heard (reception.emitChar code).2 ∧
      reception.decodeSlot.1.bits = reception.bits ∧
      reception.decodeSlot.1.errorRun ≤
        reception.errorRun + if Decoder.decided reception.bits = none then 2 else 0 := by
  cases hdecided : Decoder.decided reception.bits with
  | none =>
    have hsilent : ita2For code = none := by
      rcases htells with ⟨repaired, hsome⟩ | ⟨hsilent, -⟩
      · exact nomatch hdecided.symm.trans hsome
      · exact hsilent
    rw [Reception.emitChar_silent reception hsilent, decodeSlot_none hdecided (herrors hdecided), if_pos rfl]
    exact ⟨⟨rfl, rfl, rfl⟩, rfl, rfl, le_rfl⟩
  | some found =>
    obtain ⟨other, repaired⟩ := found
    let eased : Reception := { reception with errorRun := reception.errorRun - 1 }
    have hkept := eased.emitChar_kept other
    have hsame : Reception.Alike (eased.emitChar other).1 (reception.emitChar code).1 ∧
        (eased.emitChar other).2 = (reception.emitChar code).2 := by
      rcases htells with ⟨_, hsome⟩ | ⟨hsilent, hothers⟩
      · obtain ⟨hcode, -⟩ := Prod.mk.inj (Option.some.inj (hdecided.symm.trans hsome))
        have halike : Reception.Alike eased reception := ⟨rfl, rfl, rfl⟩
        rw [hcode]
        exact Reception.emitChar_alike halike code
      · rw [eased.emitChar_silent (hothers other repaired hdecided), reception.emitChar_silent hsilent]
        exact ⟨⟨rfl, rfl, rfl⟩, rfl⟩
    rw [decodeSlot_some hdecided]
    refine ⟨hsame.1, ?_, hkept.1, ?_⟩
    · rw [heard_append, hsame.2]
      cases repaired <;> rfl
    · dsimp only
      rw [hkept.2.2]
      exact (Nat.sub_le _ _).trans (Nat.le_add_right _ _)

/-! ## The history of a run -/

def blankSlot : List ℚ := List.replicate charBits 0

/-- The last six slots after `count` slots, with blank ones in front of the first. -/
def window (slots : List (List ℚ)) (count : ℕ) : List (List ℚ) :=
  ((List.replicate (fecSlots + 1) blankSlot ++ slots).drop count).take (fecSlots + 1)

/-- What is decided when slot `i` has come. -/
def settled (slots : List (List ℚ)) (i : ℕ) : Option (UInt8 × Bool) :=
  settle (slots.getD (i - fecSlots) []) (slots.getD i [])

section Windows

variable {slots : List (List ℚ)} (hwhole : ∀ slot ∈ slots, slot.length = charBits)

theorem getD_eq {i : ℕ} (hi : i < slots.length) : slots.getD i [] = slots[i] := by
  rw [List.getD_eq_getElem?_getD, List.getElem?_eq_getElem hi, Option.getD_some]

theorem getD_mem {i : ℕ} (hi : i < slots.length) : slots.getD i [] ∈ slots := by
  rw [getD_eq hi]
  exact List.getElem_mem hi

include hwhole

/-- The slots with blank ones in front, at a place that a run comes to. -/
theorem length_padded {m : ℕ} (hm : m < (List.replicate (fecSlots + 1) blankSlot ++ slots).length) :
    (List.replicate (fecSlots + 1) blankSlot ++ slots)[m].length = charBits := by
  rcases List.mem_append.mp (List.getElem_mem hm) with hblank | hslot
  · rw [List.eq_of_mem_replicate hblank]
    rfl
  · exact hwhole _ hslot

theorem window_ne_nil {m : ℕ} (hm : m < slots.length) : (window slots m).flatten ≠ [] := by
  have hfits : m < (List.replicate (fecSlots + 1) blankSlot ++ slots).length := by
    rw [List.length_append]
    omega
  have hfirst := length_padded hwhole hfits
  rw [window, List.drop_eq_getElem_cons hfits, List.take_succ_cons, List.flatten_cons]
  intro hnil
  rw [(List.append_eq_nil_iff.mp hnil).1] at hfirst
  cases hfirst

theorem window_succ {m : ℕ} (hm : m < slots.length) :
    ((window slots m).flatten ++ slots.getD m []).drop charBits = (window slots (m + 1)).flatten := by
  let padded := List.replicate (fecSlots + 1) blankSlot ++ slots
  have hlength : padded.length = slots.length + 6 := by
    rw [List.length_append, List.length_replicate, Nat.add_comm]
    rfl
  have hfits : m < padded.length := by omega
  have hnew : m + 6 < padded.length := by omega
  have hlast : padded[m + 6] = slots.getD m [] := by
    rw [getD_eq hm, List.getElem_append_right (by simp [fecSlots])]
    simp [fecSlots]
  have hlong : (padded.drop m).take 7 = window slots m ++ [slots.getD m []] := by
    rw [List.take_add_one, List.getElem?_drop, List.getElem?_eq_getElem hnew, hlast]
    rfl
  have hshift : (padded.drop m).take 7 = padded[m] :: window slots (m + 1) := by
    rw [List.drop_eq_getElem_cons hfits, List.take_succ_cons]
    rfl
  have hflat : (window slots m).flatten ++ slots.getD m [] = padded[m] ++ (window slots (m + 1)).flatten := by
    rw [← List.flatten_cons, ← hshift, hlong, List.flatten_append, List.flatten_singleton]
  rw [hflat, List.drop_left' (length_padded hwhole hfits)]

theorem decided_settled {i : ℕ} (hold : fecSlots ≤ i) (hi : i < slots.length) :
    Decoder.decided (window slots (i + 1)).flatten = settled slots i := by
  obtain ⟨k, rfl⟩ := Nat.exists_eq_add_of_le' hold
  have hk : k < slots.length := by
    rw [fecSlots] at hi
    omega
  have hpadded : (List.replicate (fecSlots + 1) blankSlot ++ slots).drop (k + fecSlots + 1) = slots.drop k := by
    rw [List.drop_append, List.length_replicate, List.drop_eq_nil_of_le (by simp), List.nil_append]
    congr 1
  have hnew : (slots.drop k)[5]? = some (slots.getD (k + fecSlots) []) := by
    rw [List.getElem?_drop, getD_eq hi]
    exact List.getElem?_eq_getElem hi
  have hold : slots.drop k = slots.getD k [] :: slots.drop (k + 1) := by
    rw [List.drop_eq_getElem_cons hk, getD_eq hk]
  have hwindow : window slots (k + fecSlots + 1) =
      slots.getD k [] :: (slots.drop (k + 1)).take 4 ++ [slots.getD (k + fecSlots) []] := by
    unfold window
    rw [hpadded, show fecSlots + 1 = 5 + 1 from rfl, List.take_add_one, hnew, hold, List.take_succ_cons]
    rfl
  have hbetween : ((slots.drop (k + 1)).take 4).flatten.length = rxBase - charBits := by
    have hcount : ((slots.drop (k + 1)).take 4).length = 4 := by
      rw [fecSlots] at hi
      rw [List.length_take, List.length_drop]
      omega
    have hall : ∀ slot ∈ (slots.drop (k + 1)).take 4, slot.length = charBits := fun slot hslot ↦
      hwhole slot (List.mem_of_mem_drop (List.mem_of_mem_take hslot))
    rw [List.length_flatten, List.map_congr_left hall, List.map_const', hcount]
    rfl
  rw [hwindow, decided_window (hwhole _ (getD_mem hk)) (hwhole _ (getD_mem hi)) hbetween, settled,
    Nat.add_sub_cancel]

end Windows

/-! ## A whole run -/

/-- The slots read so far of which nothing could be decided. -/
def lost (slots : List (List ℚ)) (count : ℕ) : ℕ :=
  ((Finset.range count).filter fun i ↦ i % 2 = 1 ∧ fecSlots ≤ i ∧ settled slots i = none).card

theorem lost_mono (slots : List (List ℚ)) {first second : ℕ} (hle : first ≤ second) :
    lost slots first ≤ lost slots second := by
  apply Finset.card_le_card
  apply Finset.filter_subset_filter
  exact Finset.range_mono hle

theorem lost_succ {slots : List (List ℚ)} {i : ℕ} (hlost : i % 2 = 1 ∧ fecSlots ≤ i ∧ settled slots i = none) :
    lost slots (i + 1) = lost slots i + 1 := by
  unfold lost
  rw [Finset.range_add_one, Finset.filter_insert, if_pos hlost, Finset.card_insert_of_notMem]
  simp

/-- What the codes of the slots behind two phasing pairs tell by themselves. -/
def follow (sent : List UInt8) : ℕ → Reception × List Sign
  | 0 => ({ ({} : Reception) with state := .reading 0 false, sinceChar := waited 0 28 }, [])
  | j + 1 =>
    let earlier := follow sent j
    let waiting : Reception := { earlier.1 with
      state := .reading 0 (j % 2 == 0), sinceChar := waited earlier.1.sinceChar charBits }
    let paused := earlier.2 ++ heard (pauses earlier.1.sinceChar charBits)
    if j % 2 = 1 then
      ((waiting.emitChar (sent.getD (j + 4) 0)).1,
        paused ++ heard (waiting.emitChar (sent.getD (j + 4) 0)).2)
    else (waiting, paused)

theorem follow_state (sent : List UInt8) (j : ℕ) : (follow sent j).1.state = .reading 0 (j % 2 == 1) := by
  cases j with
  | zero => rfl
  | succ j =>
    have hturn : (j % 2 == 0) = ((j + 1) % 2 == 1) := by
      rw [Bool.eq_iff_iff, beq_iff_eq, beq_iff_eq]
      omega
    rw [← hturn]
    unfold follow
    by_cases hodd : j % 2 = 1
    · simp only [if_pos hodd]
      exact (Reception.emitChar_kept _ _).2.1
    · simp only [if_neg hodd]

/-- How far a reception has come with the codes. -/
structure Follows (sent : List UInt8) (slots : List (List ℚ)) (j : ℕ) (result : Reception × List Sign) : Prop where
  alike : Reception.Alike result.1 (follow sent j).1
  signs : heard result.2 = (follow sent j).2
  bits : result.1.bits = (window slots (j + 4)).flatten
  errors : result.1.errorRun ≤ 2 * lost slots (j + 4)

section Follow

variable {sent : List UInt8} {slots : List (List ℚ)} (hwhole : ∀ slot ∈ slots, slot.length = charBits)

include hwhole

/-- One more slot, which has to tell its code if it is the slot of a second copy. -/
theorem Follows.slot {j : ℕ} {before : Reception × List Sign} (hfollows : Follows sent slots j before)
    (hj : j + 4 < slots.length)
    (htells : j % 2 = 1 → Tells (sent.getD (j + 4) 0) (settled slots (j + 4)))
    (hlost : lost slots (j + 4 + 1) ≤ 3) :
    Follows sent slots (j + 1)
      ((before.1.run (slots.getD (j + 4) [])).1,
        before.2 ++ (before.1.run (slots.getD (j + 4) [])).2) := by
  obtain ⟨reception, early⟩ := before
  obtain ⟨halike, hheard, hbits, herrors⟩ := hfollows
  dsimp only at halike hheard hbits herrors ⊢
  have hslot : (slots.getD (j + 4) []).length = charBits := hwhole _ (getD_mem hj)
  generalize hnew : slots.getD (j + 4) [] = slot at hslot ⊢
  have hstate : reception.state = .reading 0 (j % 2 == 1) := halike.state.trans (follow_state sent j)
  have hne : reception.bits ≠ [] := by
    rw [hbits]
    exact window_ne_nil hwhole hj
  have hmoved : ((reception.bits ++ slot).drop slot.length) = (window slots (j + 4 + 1)).flatten := by
    rw [← window_succ hwhole hj, ← hbits, hnew, hslot]
  have hwaited : waited reception.sinceChar slot.length = waited (follow sent j).1.sinceChar charBits := by
    rw [hslot, halike.sinceChar]
  have hgrown : lost slots (j + 4) ≤ lost slots (j + 4 + 1) := lost_mono slots (Nat.le_succ _)
  have hcome : j + 1 + 4 = j + 4 + 1 := by omega
  rw [Reception.run_slot reception hne hstate hslot]
  by_cases hodd : j % 2 = 1
  · have hturn : (j % 2 == 1) = true := beq_iff_eq.mpr hodd
    have hother : (j % 2 == 0) = false := by
      rw [beq_eq_false_iff_ne]
      omega
    have hold : fecSlots ≤ j + 4 := by
      rw [fecSlots]
      omega
    have hdecided : Decoder.decided (reception.slotted slot false).bits = settled slots (j + 4) := by
      rw [← decided_settled hwhole hold hj, ← hmoved]
      rfl
    have hcount : settled slots (j + 4) = none → lost slots (j + 4 + 1) = lost slots (j + 4) + 1 :=
      fun hnone ↦ lost_succ ⟨by omega, hold, hnone⟩
    have hslotted : (reception.slotted slot false).errorRun ≤ 2 * lost slots (j + 4) := herrors
    have htold := htells hodd
    rw [← hdecided] at htold hcount
    obtain ⟨hsame, hsigns, hkept, hrise⟩ := decodeSlot_tells htold fun hnone ↦ by
      have hmore := hcount hnone
      rw [maxErrorRun]
      omega
    let waiting : Reception := { (follow sent j).1 with
      state := .reading 0 false, sinceChar := waited (follow sent j).1.sinceChar charBits }
    have hwaiting : Reception.Alike (reception.slotted slot false) waiting := ⟨rfl, halike.figs, hwaited⟩
    obtain ⟨htwin, hspoken⟩ := Reception.emitChar_alike hwaiting (sent.getD (j + 4) 0)
    have hnext : follow sent (j + 1) = ((waiting.emitChar (sent.getD (j + 4) 0)).1,
        (follow sent j).2 ++ heard (pauses (follow sent j).1.sinceChar charBits) ++
          heard (waiting.emitChar (sent.getD (j + 4) 0)).2) := by
      rw [follow, if_pos hodd, hother]
    rw [hturn, if_pos rfl]
    constructor
    · rw [hnext]
      exact ⟨hsame.state.trans htwin.state, hsame.figs.trans htwin.figs, hsame.sinceChar.trans htwin.sinceChar⟩
    · rw [hnext, heard_append, heard_append, hheard, hsigns, hspoken, halike.sinceChar, List.append_assoc]
    · exact hkept.trans hmoved
    · rw [hcome]
      apply hrise.trans
      split_ifs with hnone
      · have hmore := hcount hnone
        omega
      · omega
  · have hturn : (j % 2 == 1) = false := beq_eq_false_iff_ne.mpr hodd
    have hother : (j % 2 == 0) = true := by
      rw [beq_iff_eq]
      omega
    have hnext : follow sent (j + 1) =
        ({ (follow sent j).1 with
            state := .reading 0 true, sinceChar := waited (follow sent j).1.sinceChar charBits },
          (follow sent j).2 ++ heard (pauses (follow sent j).1.sinceChar charBits)) := by
      rw [follow, if_neg hodd, hother]
    rw [hturn, if_neg Bool.false_ne_true]
    constructor
    · rw [hnext]
      exact ⟨rfl, halike.figs, hwaited⟩
    · rw [hnext, heard_append, hheard, halike.sinceChar]
    · exact hmoved
    · exact herrors.trans (Nat.mul_le_mul_left 2 hgrown)

/-- A reception that is told every code hears what the codes tell. -/
theorem run_follow (hpairs : ∀ i < 4, word (slots.getD i []) = Synth.idleSlot i)
    (htells : ∀ i < slots.length, i % 2 = 1 → fecSlots ≤ i → Tells (sent.getD i 0) (settled slots i))
    (hlost : lost slots slots.length ≤ 3) {j : ℕ} (hj : j + 4 ≤ slots.length) :
    Follows sent slots j (({} : Reception).run (slots.take (j + 4)).flatten) := by
  induction j with
  | zero =>
    match slots, hj with
    | first :: second :: third :: fourth :: rest, _ =>
      have hfirst := hwhole first (by simp)
      have hsecond := hwhole second (by simp)
      have hthird := hwhole third (by simp)
      have hfourth := hwhole fourth (by simp)
      have hlength : [first, second, third, fourth].flatten.length = 28 := by
        simp [hfirst, hsecond, hthird, hfourth, charBits]
      have hrun := run_pairs hfirst hsecond hthird hfourth (hpairs 0 (by decide)) (hpairs 1 (by decide))
        (hpairs 2 (by decide)) (hpairs 3 (by decide))
      have hbits : (List.replicate history (0 : ℚ) ++ [first, second, third, fourth].flatten).drop 28 =
          (window (first :: second :: third :: fourth :: rest) 4).flatten := by
        rw [List.drop_append_of_le_length (by simp [history, fecSlots, charBits]), List.drop_replicate]
        change List.replicate 14 (0 : ℚ) ++ _ = blankSlot ++ (blankSlot ++ _)
        rw [← List.append_assoc]
        rfl
      have hsince : waited 0 [first, second, third, fourth].flatten.length = waited 0 28 := by rw [hlength]
      have hlate : (({} : Reception).bits ++ [first, second, third, fourth].flatten).drop
          [first, second, third, fourth].flatten.length =
            (window (first :: second :: third :: fourth :: rest) 4).flatten := by
        rw [hlength]
        exact hbits
      rw [show (first :: second :: third :: fourth :: rest).take (0 + 4) = [first, second, third, fourth]
        from rfl, hrun]
      unfold Reception.moved
      exact ⟨⟨rfl, rfl, hsince⟩, List.filter_nil, hlate, Nat.zero_le _⟩
  | succ j ih =>
    have hm : j + 4 < slots.length := by omega
    have htake : (slots.take (j + 4 + 1)).flatten = (slots.take (j + 4)).flatten ++ slots.getD (j + 4) [] := by
      rw [List.take_add_one, List.getElem?_eq_getElem hm, List.flatten_append, Option.toList_some,
        List.flatten_singleton, ← getD_eq hm]
    rw [show j + 1 + 4 = j + 4 + 1 by omega, htake, Reception.run_append]
    apply (ih hm.le).slot hwhole hm
    · intro hodd
      apply htells (j + 4) hm
      · omega
      · rw [fecSlots]
        omega
    · exact (lost_mono slots hm).trans hlost

end Follow

end Sdrmm.Navtex
