import Mathlib.Data.List.GetD
import Sdrmm.Channels.NavtexFollow

/-!
# Two copies of a NAVTEX character

`synth/navtex.rs` sends each code twice, five slots apart, between phasing pairs and an idle tail.  Whatever damage
leaves one copy of each code does not change what is heard, as long as the tail is not taken for codes and
does not cost the lock.
-/

namespace Sdrmm.Navtex

open Lib.Checked

/-! ## The sender -/

namespace Synth

def idleTailPairs : ℕ := 4

/-- The codes in their slots. -/
def fill (base : ℕ) (codes idle : List UInt8) : List UInt8 :=
  codes.zipIdx.foldl (fun slots (code, k) ↦
    (slots.set (base + 2 * k) code).set (base + 2 * k + fecSlots) code) idle

/-- The slots of some codes, in which each code stands twice. -/
def slots (codes : List UInt8) (phasingPairs : ℕ) : List UInt8 :=
  let base := 2 * phasingPairs
  let len :=
    if codes.isEmpty then base else base + 2 * codes.length + fecSlots - 1 + 2 * idleTailPairs
  fill base codes ((List.range len).map idleSlot)

def bits (slots : List UInt8) : List Bool :=
  slots.flatMap fun code ↦ (List.range charBits).map fun i ↦ code.toNat.testBit i

end Synth

/-- The soft bit of a bit that arrives as it was sent. -/
def soft (bit : Bool) : ℚ := if bit then 1 else -1

/-! ## Damage -/

/-- The word of a slot is the code that was sent there. -/
def Intact (sent : List UInt8) (slots : List (List ℚ)) (i : ℕ) : Prop := word (slots.getD i []) = sent.getD i 0

instance (sent : List UInt8) (slots : List (List ℚ)) (i : ℕ) : Decidable (Intact sent slots i) :=
  inferInstanceAs (Decidable (_ = _))

/-- What arrives of a transmission: the phasing is intact, no slot becomes another word of four ones, and each code
keeps one of its copies. -/
structure Damage (codes : List UInt8) (phasingPairs : ℕ) (slots : List (List ℚ)) : Prop where
  count : slots.length = (Synth.slots codes phasingPairs).length
  whole : ∀ slot ∈ slots, slot.length = charBits
  phasing : ∀ i < 2 * phasingPairs, Intact (Synth.slots codes phasingPairs) slots i
  invalid : ∀ i < slots.length, Intact (Synth.slots codes phasingPairs) slots i ∨
    valid (word (slots.getD i [])) = false
  copies : ∀ k < codes.length,
    Intact (Synth.slots codes phasingPairs) slots (2 * phasingPairs + 2 * k) ∨
      Intact (Synth.slots codes phasingPairs) slots (2 * phasingPairs + 2 * k + fecSlots)

/-- The first slot of an idle pair behind the codes. -/
def tailSlot (codes : List UInt8) (phasingPairs j : ℕ) : ℕ := 2 * phasingPairs + 2 * (codes.length + j)

/-- One slot of an idle pair arrives. -/
def TailKept (codes : List UInt8) (phasingPairs : ℕ) (slots : List (List ℚ)) (j : ℕ) : Prop :=
  Intact (Synth.slots codes phasingPairs) slots (tailSlot codes phasingPairs j) ∨
    Intact (Synth.slots codes phasingPairs) slots (tailSlot codes phasingPairs j + fecSlots)

instance (codes : List UInt8) (phasingPairs : ℕ) (slots : List (List ℚ)) (j : ℕ) :
    Decidable (TailKept codes phasingPairs slots j) :=
  inferInstanceAs (Decidable (_ ∨ _))

/-- No idle pair of which nothing arrives adds up to a code, and of one idle pair something arrives. -/
structure TailHolds (codes : List UInt8) (phasingPairs : ℕ) (slots : List (List ℚ)) : Prop where
  silent : ∀ j < Synth.idleTailPairs, TailKept codes phasingPairs slots j ∨
    ita2For (summed (slots.getD (tailSlot codes phasingPairs j) [])
      (slots.getD (tailSlot codes phasingPairs j + fecSlots) [])) = none
  lock : ∃ j < Synth.idleTailPairs, TailKept codes phasingPairs slots j

/-- A message without its count of repairs. -/
def readable (message : NavtexMessage) : NavtexMessage := { message with errorsCorrected := 0 }

/-- The messages of some soft bits, without their counts of repairs. -/
def read (softs : List ℚ) : Except Halt (List NavtexMessage) :=
  (Decoder.new.run softs).map fun result ↦ result.2.map readable

/-! ## Where the codes stand -/

namespace Synth

theorem fill_snoc (base : ℕ) (codes idle : List UInt8) (code : UInt8) :
    fill base (codes ++ [code]) idle =
      ((fill base codes idle).set (base + 2 * codes.length) code).set (base + 2 * codes.length + fecSlots)
        code := by
  unfold fill
  rw [List.zipIdx_append, List.foldl_append, List.zipIdx_singleton, Nat.zero_add]
  rfl

theorem length_fill (base : ℕ) (codes idle : List UInt8) : (fill base codes idle).length = idle.length := by
  induction codes using List.reverseRecOn with
  | nil => rfl
  | append_singleton codes code ih => rw [fill_snoc, List.length_set, List.length_set, ih]

theorem getD_set (slots : List UInt8) (i j : ℕ) (code : UInt8) :
    (slots.set i code).getD j 0 = if i = j ∧ j < slots.length then code else slots.getD j 0 := by
  rw [List.getD_eq_getElem?_getD, List.getElem?_set, List.getD_eq_getElem?_getD]
  by_cases hplace : i = j
  · subst hplace
    by_cases hi : i < slots.length
    · simp [hi]
    · simp [hi]
  · simp [hplace]

variable {base : ℕ} {codes idle : List UInt8}

/-- Slots in which no code stands are idle. -/
theorem getD_fill_of_ne {i : ℕ} (hi : ∀ k < codes.length, i ≠ base + 2 * k ∧ i ≠ base + 2 * k + fecSlots) :
    (fill base codes idle).getD i 0 = idle.getD i 0 := by
  induction codes using List.reverseRecOn with
  | nil => rfl
  | append_singleton codes code ih =>
    rw [List.length_append, List.length_singleton] at hi
    obtain ⟨hdx, hrx⟩ := hi codes.length (Nat.lt_succ_self _)
    rw [fill_snoc, getD_set, if_neg (fun h ↦ hrx h.1.symm), getD_set, if_neg (fun h ↦ hdx h.1.symm)]
    exact ih fun k hk ↦ hi k (Nat.lt_succ_of_lt hk)

/-- Both slots of a code carry it. -/
theorem getD_fill {k : ℕ} (hk : k < codes.length) (hfits : base + 2 * k + fecSlots < idle.length) :
    (fill base codes idle).getD (base + 2 * k) 0 = codes.getD k 0 ∧
      (fill base codes idle).getD (base + 2 * k + fecSlots) 0 = codes.getD k 0 := by
  induction codes using List.reverseRecOn with
  | nil => exact absurd hk (Nat.not_lt_zero k)
  | append_singleton codes code ih =>
    have hlength := length_fill base codes idle
    rw [List.length_append, List.length_singleton] at hk
    rw [fill_snoc, getD_set, getD_set, getD_set, getD_set, List.length_set, hlength, fecSlots] at *
    rcases Nat.lt_succ_iff_lt_or_eq.mp hk with hearlier | rfl
    · rw [if_neg (by omega), if_neg (by omega), if_neg (by omega), if_neg (by omega),
        List.getD_append _ _ _ _ hearlier]
      exact ih hearlier
    · rw [if_neg (by omega), if_pos (by omega), if_pos (by omega)]
      simp

end Synth

/-! ## What damage leaves -/

theorem settle_rx {dx rx : List ℚ} (hrx : valid (word rx) = true) : settle dx rx = some (word rx, false) :=
  if_pos hrx

theorem settle_dx {dx rx : List ℚ} (hrx : valid (word rx) = false) (hdx : valid (word dx) = true) :
    settle dx rx = some (word dx, true) := by
  rw [settle, hrx, hdx]
  rfl

theorem exists_of_ita2For {code : UInt8} (hcode : (ita2For code).isSome) : ∃ pair ∈ ccir476, pair.1 = code := by
  obtain ⟨ita2, hita2⟩ := Option.isSome_iff_exists.mp hcode
  obtain ⟨pair, hpair, hfound⟩ := List.exists_of_findSome?_eq_some hita2
  refine ⟨pair, hpair, ?_⟩
  by_contra hne
  simp [hne] at hfound

/-- A code of the table is a word of four ones. -/
theorem valid_of_ita2For {code : UInt8} (hcode : (ita2For code).isSome) : valid code = true := by
  have htable : (ccir476.all fun pair ↦ valid pair.1) = true := rfl
  obtain ⟨pair, hpair, rfl⟩ := exists_of_ita2For hcode
  exact List.all_eq_true.mp htable pair hpair

section Damaged

variable {codes : List UInt8} {phasingPairs : ℕ}

theorem length_slots (hcodes : codes ≠ []) :
    (Synth.slots codes phasingPairs).length = 2 * phasingPairs + 2 * codes.length + 12 := by
  rw [Synth.slots, Synth.length_fill, List.length_map, List.length_range, if_neg (by simpa using hcodes),
    fecSlots, Synth.idleTailPairs]
  omega

theorem length_slots_nil : (Synth.slots [] phasingPairs).length = 2 * phasingPairs := by
  rw [Synth.slots, Synth.length_fill, List.length_map, List.length_range]
  rfl

theorem getD_slots_idle {i : ℕ} (hi : i < (Synth.slots codes phasingPairs).length)
    (hidle : ∀ k < codes.length,
      i ≠ 2 * phasingPairs + 2 * k ∧ i ≠ 2 * phasingPairs + 2 * k + fecSlots) :
    (Synth.slots codes phasingPairs).getD i 0 = Synth.idleSlot i := by
  rw [Synth.slots, Synth.length_fill] at hi
  rw [Synth.slots, Synth.getD_fill_of_ne hidle, List.getD_eq_getElem _ _ hi, List.getElem_map,
    List.getElem_range]

theorem getD_slots_code {k : ℕ} (hk : k < codes.length) :
    (Synth.slots codes phasingPairs).getD (2 * phasingPairs + 2 * k) 0 = codes.getD k 0 ∧
      (Synth.slots codes phasingPairs).getD (2 * phasingPairs + 2 * k + fecSlots) 0 = codes.getD k 0 := by
  have hlength : (Synth.slots codes phasingPairs).length = 2 * phasingPairs + 2 * codes.length + 12 :=
    length_slots (List.ne_nil_of_length_pos (Nat.zero_lt_of_lt hk))
  rw [Synth.slots, Synth.length_fill] at hlength
  apply Synth.getD_fill hk
  rw [hlength, fecSlots]
  omega

variable {slots : List (List ℚ)}

/-- A pair of slots of which one arrives tells what is decided of it. -/
theorem tells_of_kept (hdamage : Damage codes phasingPairs slots) {i : ℕ} (hi : i < slots.length) {code old : UInt8}
    (hcode : (Synth.slots codes phasingPairs).getD i 0 = code) (hvalid : valid code = true)
    (hold : (Synth.slots codes phasingPairs).getD (i - fecSlots) 0 = old) (holdValid : valid old = true)
    (hsame : old = code ∨ ita2For code = none ∧ ita2For old = none)
    (hkept : Intact (Synth.slots codes phasingPairs) slots (i - fecSlots) ∨
      Intact (Synth.slots codes phasingPairs) slots i) :
    Tells code (settled slots i) ∧ settled slots i ≠ none := by
  unfold settled
  by_cases hrx : Intact (Synth.slots codes phasingPairs) slots i
  · have hword : word (slots.getD i []) = code := hrx.trans hcode
    rw [settle_rx (hword ▸ hvalid), hword]
    exact ⟨.inl ⟨false, rfl⟩, Option.some_ne_none _⟩
  · have hdx : word (slots.getD (i - fecSlots) []) = old := (hkept.resolve_right hrx).trans hold
    have hlost := (hdamage.invalid i hi).resolve_left hrx
    rw [settle_dx hlost (hdx ▸ holdValid), hdx]
    refine ⟨?_, Option.some_ne_none _⟩
    rcases hsame with rfl | ⟨hsilent, hother⟩
    · exact .inl ⟨true, rfl⟩
    · refine .inr ⟨hsilent, ?_⟩
      intro other repaired hsome
      obtain ⟨rfl, -⟩ := Prod.mk.inj (Option.some.inj hsome)
      exact hother

/-- An odd slot in which no code stands carries alpha. -/
theorem getD_slots_alpha {i : ℕ} (hi : i < (Synth.slots codes phasingPairs).length) (hodd : i % 2 = 1)
    (hidle : ∀ k < codes.length, i ≠ 2 * phasingPairs + 2 * k + fecSlots) :
    (Synth.slots codes phasingPairs).getD i 0 = alpha := by
  rw [getD_slots_idle hi fun k hk ↦ ⟨by omega, hidle k hk⟩, Synth.idleSlot, if_neg (by omega)]

/-- An even slot in which no code stands carries a request for repetition. -/
theorem getD_slots_rep {i : ℕ} (hi : i < (Synth.slots codes phasingPairs).length) (heven : i % 2 = 0)
    (hidle : ∀ k < codes.length, i ≠ 2 * phasingPairs + 2 * k) :
    (Synth.slots codes phasingPairs).getD i 0 = rep := by
  rw [getD_slots_idle hi fun k hk ↦ ⟨hidle k hk, by rw [fecSlots]; omega⟩, Synth.idleSlot, if_pos heven]

/-- What is decided of the slot of a second copy tells its code, unless the slot is one of an idle pair of which
nothing arrives. -/
theorem settled_cases (hcodes : ∀ code ∈ codes, (ita2For code).isSome)
    (hdamage : Damage codes phasingPairs slots) {i : ℕ} (hi : i < slots.length) (hodd : i % 2 = 1)
    (hlate : fecSlots ≤ i) :
    (Tells ((Synth.slots codes phasingPairs).getD i 0) (settled slots i) ∧ settled slots i ≠ none) ∨
      ∃ j < Synth.idleTailPairs, i = tailSlot codes phasingPairs j + fecSlots ∧
        ¬TailKept codes phasingPairs slots j := by
  have hsent : i < (Synth.slots codes phasingPairs).length := hdamage.count ▸ hi
  have hbefore : i - fecSlots < (Synth.slots codes phasingPairs).length := by omega
  have halpha : valid alpha = true := by decide
  have hrep : valid rep = true := by decide
  have hsilent : ita2For alpha = none ∧ ita2For rep = none := by decide
  rw [fecSlots] at hlate
  by_cases hearly : i < 2 * phasingPairs + fecSlots
  · left
    have hcode := getD_slots_alpha hsent hodd fun k _ ↦ by omega
    have hold := getD_slots_rep hbefore (by rw [fecSlots]; omega) fun k _ ↦ by rw [fecSlots] at *; omega
    rw [hcode]
    apply tells_of_kept hdamage hi hcode halpha hold hrep (.inr hsilent)
    exact .inl (hdamage.phasing _ (by rw [fecSlots] at *; omega))
  · obtain ⟨k, hk⟩ : ∃ k, i = 2 * phasingPairs + 2 * k + fecSlots := by
      refine ⟨(i - 2 * phasingPairs - 5) / 2, ?_⟩
      rw [fecSlots] at *
      omega
    subst hk
    rw [Nat.add_sub_cancel] at hbefore
    by_cases hcopy : k < codes.length
    · left
      have hstands : (Synth.slots codes phasingPairs).getD (2 * phasingPairs + 2 * k) 0 = codes.getD k 0 ∧ _ :=
        getD_slots_code hcopy
      have hmem : codes.getD k 0 ∈ codes := by
        rw [List.getD_eq_getElem _ _ hcopy]
        exact List.getElem_mem hcopy
      have hvalid := valid_of_ita2For (hcodes _ hmem)
      rw [hstands.2]
      apply tells_of_kept hdamage hi hstands.2 hvalid (by rw [Nat.add_sub_cancel]; exact hstands.1) hvalid (.inl rfl)
      rw [Nat.add_sub_cancel]
      exact hdamage.copies k hcopy
    · have hne : codes ≠ [] := by
        rintro rfl
        rw [length_slots_nil, fecSlots] at hsent
        omega
      have hlength : (Synth.slots codes phasingPairs).length = 2 * phasingPairs + 2 * codes.length + 12 :=
        length_slots hne
      let j := k - codes.length
      have hplace : tailSlot codes phasingPairs j = 2 * phasingPairs + 2 * k := by
        rw [tailSlot]
        omega
      by_cases hkept : TailKept codes phasingPairs slots j
      · left
        have hcode := getD_slots_alpha hsent hodd fun k _ ↦ by omega
        have hold := getD_slots_rep hbefore (by omega) fun k _ ↦ by omega
        rw [TailKept, hplace] at hkept
        rw [hcode]
        apply tells_of_kept hdamage hi hcode halpha (by rw [Nat.add_sub_cancel]; exact hold) hrep (.inr hsilent)
        rw [Nat.add_sub_cancel]
        exact hkept
      · right
        refine ⟨j, ?_, by rw [hplace], hkept⟩
        rw [hlength, fecSlots] at hsent
        rw [Synth.idleTailPairs]
        omega

/-- An idle pair of which nothing arrives is not taken for a code. -/
theorem tells_tail (hdamage : Damage codes phasingPairs slots) (htail : TailHolds codes phasingPairs slots) {j : ℕ}
    (hj : j < Synth.idleTailPairs) (hi : tailSlot codes phasingPairs j + fecSlots < slots.length)
    (hkept : ¬TailKept codes phasingPairs slots j) :
    Tells ((Synth.slots codes phasingPairs).getD (tailSlot codes phasingPairs j + fecSlots) 0)
      (settled slots (tailSlot codes phasingPairs j + fecSlots)) := by
  have hsent : tailSlot codes phasingPairs j + fecSlots < (Synth.slots codes phasingPairs).length :=
    hdamage.count ▸ hi
  have hodd : (tailSlot codes phasingPairs j + fecSlots) % 2 = 1 := by
    rw [tailSlot, fecSlots]
    omega
  have hcode := getD_slots_alpha hsent hodd fun k _ ↦ by
    rw [tailSlot]
    omega
  have hsummed := (htail.silent j hj).resolve_left hkept
  obtain ⟨hdx, hrx⟩ := not_or.mp hkept
  have hlostRx := (hdamage.invalid _ hi).resolve_left hrx
  have hlostDx := (hdamage.invalid _ (Nat.lt_of_le_of_lt (Nat.le_add_right _ _) hi)).resolve_left hdx
  rw [hcode]
  refine .inr ⟨by decide, ?_⟩
  intro other repaired hsome
  rw [settled, Nat.add_sub_cancel, settle, hlostRx, hlostDx] at hsome
  simp only [Bool.false_eq_true, if_false] at hsome
  split_ifs at hsome
  obtain ⟨rfl, -⟩ := Prod.mk.inj (Option.some.inj hsome)
  exact hsummed

theorem lost_le (hcodes : ∀ code ∈ codes, (ita2For code).isSome) (hdamage : Damage codes phasingPairs slots)
    (htail : codes ≠ [] → TailHolds codes phasingPairs slots) : lost slots slots.length ≤ 3 := by
  by_cases hne : codes = []
  · subst hne
    have hnone : ∀ i < slots.length, ¬(i % 2 = 1 ∧ fecSlots ≤ i ∧ settled slots i = none) := by
      rintro i hi ⟨hodd, hlate, hnone⟩
      have hend := hdamage.count.trans length_slots_nil
      rcases settled_cases hcodes hdamage hi hodd hlate with ⟨-, hsome⟩ | ⟨j, -, rfl, -⟩
      · exact hsome hnone
      · rw [tailSlot, List.length_nil] at hi
        omega
    have hempty : lost slots slots.length = 0 := by
      rw [lost, Finset.card_eq_zero, Finset.filter_eq_empty_iff]
      exact fun i hi ↦ hnone i (Finset.mem_range.mp hi)
    omega
  · obtain ⟨kept, hkept, hlock⟩ := (htail hne).lock
    calc
      lost slots slots.length ≤ (((Finset.range Synth.idleTailPairs).erase kept).image fun j ↦
          tailSlot codes phasingPairs j + fecSlots).card := by
        apply Finset.card_le_card
        intro i hi
        rw [Finset.mem_filter, Finset.mem_range] at hi
        obtain ⟨hi, hodd, hlate, hnone⟩ := hi
        rcases settled_cases hcodes hdamage hi hodd hlate with ⟨-, hsome⟩ | ⟨j, hj, rfl, hgone⟩
        · exact absurd hnone hsome
        · apply Finset.mem_image_of_mem
          rw [Finset.mem_erase, Finset.mem_range]
          exact ⟨fun h ↦ hgone (h ▸ hlock), hj⟩
      _ ≤ ((Finset.range Synth.idleTailPairs).erase kept).card := Finset.card_image_le
      _ = 3 := by
        rw [Finset.card_erase_of_mem (Finset.mem_range.mpr hkept), Finset.card_range]
        rfl

end Damaged

/-! ## What is written of it -/

namespace Page

/-- A page without its count of repairs. -/
def plain (page : Page) : Page := { page with errorsCorrected := 0 }

/-- A result without its counts of repairs. -/
def stripped (result : Except Halt (Page × List NavtexMessage)) : Except Halt (Page × List NavtexMessage) :=
  result.map fun written ↦ (written.1.plain, written.2.map readable)

theorem stripped_emitMessage (page : Page) (complete : Bool) :
    stripped (.ok (page.emitMessage complete)) = stripped (.ok (page.plain.emitMessage complete)) := by
  unfold emitMessage plain
  dsimp only
  split_ifs <;> rfl

theorem stripped_pushText (page : Page) (ch : Char) :
    stripped (page.pushText ch) = stripped (page.plain.pushText ch) := by
  unfold pushText plain
  dsimp only
  split_ifs with hstart hcollecting hwaiting hend hfull
  · cases sub page.body.length 3 with
    | error halt => rfl
    | ok length =>
      simp only [ok_bind]
      unfold emitMessage
      dsimp only
      split_ifs <;> rfl
  · rfl
  · rfl
  · cases sub page.body.length 3 with
    | error halt => rfl
    | ok length => exact stripped_emitMessage { page with body := page.body.take length } true
  · exact stripped_emitMessage { page with body := page.body ++ [ch] } false
  · rfl

theorem stripped_take (page : Page) (sign : Sign) : stripped (page.take sign) = stripped (page.plain.take sign) := by
  cases sign with
  | repaired => rfl
  | char c => exact stripped_pushText { page with newline := false, tail := page.tail.drop 1 ++ [c] } c
  | lineBreak => rfl
  | flush => exact stripped_emitMessage page false

/-- Results that agree without their counts of repairs go on alike. -/
theorem stripped_bind {first second : Except Halt (Page × List NavtexMessage)}
    {next other : Page → Except Halt (Page × List NavtexMessage)} (hsame : stripped first = stripped second)
    (hnext : ∀ page page' : Page, page.plain = page'.plain → stripped (next page) = stripped (other page')) :
    stripped (first >>= fun early ↦ next early.1 >>= fun late ↦ pure (late.1, early.2 ++ late.2)) =
      stripped (second >>= fun early ↦ other early.1 >>= fun late ↦ pure (late.1, early.2 ++ late.2)) := by
  match first, second, hsame with
  | .error halt, .error _, hsame => exact hsame
  | .ok early, .ok early', hsame =>
    obtain ⟨hpage, hout⟩ := Prod.mk.inj (Except.ok.inj hsame)
    have hlate := hnext early.1 early'.1 hpage
    simp only [ok_bind]
    revert hlate
    match next early.1, other early'.1 with
    | .error _, .error _ => exact fun hlate ↦ hlate
    | .error _, .ok _ => exact fun hlate ↦ nomatch hlate
    | .ok _, .error _ => exact fun hlate ↦ nomatch hlate
    | .ok late, .ok late' =>
      intro hlate
      obtain ⟨hlast, hmore⟩ := Prod.mk.inj (Except.ok.inj hlate)
      simp only [stripped, Except.map, pure, Except.pure, ok_bind, List.map_append, hlast, hout, hmore]

theorem stripped_takeAll (signs : List Sign) {page page' : Page} (hpage : page.plain = page'.plain) :
    stripped (page.takeAll signs) = stripped (page'.takeAll signs) := by
  induction signs generalizing page page' with
  | nil => exact congrArg (fun page ↦ Except.ok (page, [])) hpage
  | cons sign rest ih =>
    have hfirst : stripped (page.take sign) = stripped (page'.take sign) := by
      rw [stripped_take page, stripped_take page', hpage]
    exact stripped_bind hfirst fun _ _ ↦ ih

/-- Without the counts of repairs, what is written does not depend on repairs. -/
theorem stripped_takeAll_heard (page : Page) (signs : List Sign) :
    stripped (page.takeAll signs) = stripped (page.takeAll (heard signs)) := by
  induction signs generalizing page with
  | nil => rfl
  | cons sign rest ih =>
    by_cases hsign : sign = .repaired
    · subst hsign
      let repaired : Page := { page with errorsCorrected := min (page.errorsCorrected + 1) u32Max }
      have hskip : page.takeAll (.repaired :: rest) = repaired.takeAll rest := by
        rw [takeAll_cons]
        simp only [take, pure, Except.pure, ok_bind, List.nil_append]
        cases takeAll _ rest with
        | error halt => rfl
        | ok last => rfl
      rw [hskip, ih repaired]
      exact stripped_takeAll (heard rest) rfl
    · have hheard : heard (sign :: rest) = sign :: heard rest := by
        rw [heard, List.filter_cons_of_pos (by simpa using hsign)]
        rfl
      rw [hheard]
      exact stripped_bind rfl fun page page' hpage ↦ (ih page).trans (stripped_takeAll (heard rest) hpage)

end Page

/-- Soft bits of which the same is heard, but for repairs, are read alike. -/
theorem read_eq_of_heard {first second : List ℚ} (hheard : heard (signs first) = heard (signs second)) :
    read first = read second := by
  have hread : ∀ softs : List ℚ, read softs =
      (Page.stripped (({} : Page).takeAll (signs softs))).map fun written ↦ written.2 := by
    intro softs
    rw [read, Decoder.run_eq]
    change (joined _ (({} : Page).takeAll (signs softs))).map _ = _
    cases ({} : Page).takeAll (signs softs) with
    | error halt => rfl
    | ok written => rfl
  rw [hread, hread, Page.stripped_takeAll_heard, hheard, ← Page.stripped_takeAll_heard]

/-! ## The undamaged stream -/

/-- The slot of a code that arrives as it was sent. -/
def clean (code : UInt8) : List ℚ := (List.range charBits).map fun i ↦ soft (code.toNat.testBit i)

theorem flatten_clean (sent : List UInt8) : (sent.map clean).flatten = (Synth.bits sent).map soft := by
  rw [Synth.bits, List.map_flatMap, List.flatMap_def]
  simp only [List.map_map]
  rfl

theorem word_clean {code : UInt8} (hcode : (ita2For code).isSome ∨ code = alpha ∨ code = rep) :
    word (clean code) = code := by
  have htable : (ccir476.all fun pair ↦ word (clean pair.1) == pair.1) = true := rfl
  rcases hcode with hdata | rfl | rfl
  · obtain ⟨pair, hpair, rfl⟩ := exists_of_ita2For hdata
    exact beq_iff_eq.mp (List.all_eq_true.mp htable pair hpair)
  · decide
  · decide

theorem mem_fill {base : ℕ} {codes idle : List UInt8} {code : UInt8} (hcode : code ∈ Synth.fill base codes idle) :
    code ∈ codes ∨ code ∈ idle := by
  induction codes using List.reverseRecOn with
  | nil => exact .inr hcode
  | append_singleton codes last ih =>
    rw [Synth.fill_snoc] at hcode
    rcases List.mem_or_eq_of_mem_set hcode with hfirst | rfl
    · rcases List.mem_or_eq_of_mem_set hfirst with hearlier | rfl
      · exact (ih hearlier).imp_left (List.mem_append_left _)
      · exact .inl (List.mem_append_right _ (List.mem_singleton_self _))
    · exact .inl (List.mem_append_right _ (List.mem_singleton_self _))

section Clean

variable {codes : List UInt8} {phasingPairs : ℕ}

theorem intact_clean (hcodes : ∀ code ∈ codes, (ita2For code).isSome) {i : ℕ}
    (hi : i < (Synth.slots codes phasingPairs).length) :
    Intact (Synth.slots codes phasingPairs) ((Synth.slots codes phasingPairs).map clean) i := by
  have hsent : (Synth.slots codes phasingPairs).getD i 0 ∈ Synth.slots codes phasingPairs := by
    rw [List.getD_eq_getElem _ _ hi]
    exact List.getElem_mem hi
  have hslot : ((Synth.slots codes phasingPairs).map clean).getD i [] =
      clean ((Synth.slots codes phasingPairs).getD i 0) := by
    rw [List.getD_eq_getElem _ _ hi, List.getD_eq_getElem _ _ (by rwa [List.length_map]), List.getElem_map]
  rw [Intact, hslot]
  apply word_clean
  rcases mem_fill hsent with hcode | hidle
  · exact .inl (hcodes _ hcode)
  · obtain ⟨place, -, hplace⟩ := List.mem_map.mp hidle
    rw [← hplace, Synth.idleSlot]
    split_ifs
    · exact .inr (.inr rfl)
    · exact .inr (.inl rfl)

theorem damage_clean (hcodes : ∀ code ∈ codes, (ita2For code).isSome) :
    Damage codes phasingPairs ((Synth.slots codes phasingPairs).map clean) where
  count := List.length_map _
  whole := by
    intro slot hslot
    obtain ⟨code, -, rfl⟩ := List.mem_map.mp hslot
    rw [clean, List.length_map, List.length_range]
  phasing := by
    intro i hi
    apply intact_clean hcodes
    by_cases hne : codes = []
    · subst hne
      rwa [length_slots_nil]
    · rw [length_slots hne]
      omega
  invalid := by
    intro i hi
    rw [List.length_map] at hi
    exact .inl (intact_clean hcodes hi)
  copies := by
    intro k hk
    left
    apply intact_clean hcodes
    rw [length_slots (List.ne_nil_of_length_pos (Nat.zero_lt_of_lt hk))]
    omega

theorem tailKept_clean (hcodes : ∀ code ∈ codes, (ita2For code).isSome) (hne : codes ≠ []) {j : ℕ}
    (hj : j < Synth.idleTailPairs) :
    TailKept codes phasingPairs ((Synth.slots codes phasingPairs).map clean) j := by
  left
  apply intact_clean hcodes
  rw [Synth.idleTailPairs] at hj
  rw [length_slots hne, tailSlot]
  omega

theorem tailHolds_clean (hcodes : ∀ code ∈ codes, (ita2For code).isSome) (hne : codes ≠ []) :
    TailHolds codes phasingPairs ((Synth.slots codes phasingPairs).map clean) where
  silent := fun _ hj ↦ .inl (tailKept_clean hcodes hne hj)
  lock := ⟨0, by decide, tailKept_clean hcodes hne (by decide)⟩

variable {slots : List (List ℚ)}

/-- What is heard of a damaged stream is what its codes tell. -/
theorem heard_damaged (hcodes : ∀ code ∈ codes, (ita2For code).isSome) (hpairs : 2 ≤ phasingPairs)
    (hdamage : Damage codes phasingPairs slots) (htail : codes ≠ [] → TailHolds codes phasingPairs slots) :
    heard (signs slots.flatten) =
      (follow (Synth.slots codes phasingPairs) ((Synth.slots codes phasingPairs).length - 4)).2 := by
  have hlong : 4 ≤ (Synth.slots codes phasingPairs).length := by
    by_cases hne : codes = []
    · subst hne
      rw [length_slots_nil]
      omega
    · rw [length_slots hne]
      omega
  have hphasing : ∀ i < 4, word (slots.getD i []) = Synth.idleSlot i := by
    intro i hi
    have hplace : i < 2 * phasingPairs := by omega
    rw [hdamage.phasing i hplace]
    exact getD_slots_idle (by omega) fun k _ ↦ ⟨by omega, by omega⟩
  have htells : ∀ i < slots.length, i % 2 = 1 → fecSlots ≤ i →
      Tells ((Synth.slots codes phasingPairs).getD i 0) (settled slots i) := by
    intro i hi hodd hlate
    rcases settled_cases hcodes hdamage hi hodd hlate with ⟨htold, -⟩ | ⟨j, hj, rfl, hgone⟩
    · exact htold
    · have hne : codes ≠ [] := by
        rintro rfl
        rw [hdamage.count, length_slots_nil, tailSlot] at hi
        omega
      exact tells_tail hdamage (htail hne) hj hi hgone
  have hj : (Synth.slots codes phasingPairs).length - 4 + 4 ≤ slots.length := by
    rw [hdamage.count]
    omega
  have hrun := run_follow hdamage.whole hphasing htells (lost_le hcodes hdamage htail) hj
  rw [Nat.sub_add_cancel hlong, ← hdamage.count, List.take_length, hdamage.count] at hrun
  exact hrun.signs

/-- Damage that leaves one copy of each code and does not spoil the idle tail changes no message but in its count
of repairs. -/
theorem time_diversity (hcodes : ∀ code ∈ codes, (ita2For code).isSome) (hpairs : 2 ≤ phasingPairs)
    (hdamage : Damage codes phasingPairs slots) (htail : codes ≠ [] → TailHolds codes phasingPairs slots) :
    read slots.flatten = read ((Synth.bits (Synth.slots codes phasingPairs)).map soft) := by
  apply read_eq_of_heard
  rw [heard_damaged hcodes hpairs hdamage htail, ← flatten_clean,
    heard_damaged hcodes hpairs (damage_clean hcodes) (tailHolds_clean hcodes)]

end Clean

/-- A transmission of which nothing arrives in some slots. -/
def blanked (codes : List UInt8) (phasingPairs : ℕ) (places : List ℕ) : List (List ℚ) :=
  (Synth.slots codes phasingPairs).zipIdx.map fun (code, i) ↦
    if i ∈ places then List.replicate charBits (-1) else clean code

/-- A start group and one letter. -/
def begun : List UInt8 := [0x63, 0x1D, 0x63, 0x1D, 0x56]

theorem begun_codes : ∀ code ∈ begun, (ita2For code).isSome := by
  have hall : (begun.all fun code ↦ (ita2For code).isSome) = true := rfl
  exact List.all_eq_true.mp hall

theorem time_diversity_begun :
    read (blanked begun 2 [4, 11, 8, 15, 17, 16, 21]).flatten =
      read ((Synth.bits (Synth.slots begun 2)).map soft) :=
  time_diversity begun_codes le_rfl ⟨by decide, by decide, by decide, by decide, by decide⟩
    fun _ ↦ ⟨by decide +kernel, 3, by decide, .inl (by decide)⟩

/-- When nothing arrives of all four idle pairs the lock is lost and an unfinished message is given up. -/
theorem time_diversity_lost :
    Damage begun 2 (blanked begun 2 [14, 16, 18, 20, 19, 21, 23, 25]) ∧
      read (blanked begun 2 [14, 16, 18, 20, 19, 21, 23, 25]).flatten ≠
        read ((Synth.bits (Synth.slots begun 2)).map soft) := by
  constructor
  · exact ⟨by decide, by decide, by decide, by decide, by decide⟩
  · have hlost : ((read (blanked begun 2 [14, 16, 18, 20, 19, 21, 23, 25]).flatten).toOption.map
        List.length) = some 1 := by decide +kernel
    have hsent : ((read ((Synth.bits (Synth.slots begun 2)).map soft)).toOption.map List.length) = some 0 := by
      decide +kernel
    intro hsame
    rw [hsame, hsent] at hlost
    cases hlost

end Sdrmm.Navtex
