import Sdrmm.Lib.BinaryCode

/-!
# The POCSAG code

The BCH code of `dsp/src/fec.rs` with its overall parity bit.  The syndrome tells the patterns of up
to two bits apart, so the codewords are six bits from each other: what the decoder returns within
two bits of the word is the one codeword there, and three errors leave none in reach.
-/

namespace Sdrmm.PocsagBch

open Bits BinaryCode

def pocsagGen : ℕ := 0x769

def pocsagCodeBits : ℕ := 31

def pocsagDataBits : ℕ := 21

def pocsagSyndrome (field : ℕ) : ℕ :=
  longDivision pocsagGen 10 (pocsagCodeBits - 10) (field % 2 ^ pocsagCodeBits)

def pocsagBitSyndromes : List ℕ := (List.range 31).map fun i ↦ pocsagSyndrome (1 <<< i)

def pocsagFindBit (syndrome : ℕ) : Option ℕ := pocsagBitSyndromes.findIdx? (· == syndrome)

def pocsagFindPair (syndrome : ℕ) : Option (ℕ × ℕ) :=
  pocsagBitSyndromes.zipIdx.findSome? fun (synA, a) ↦
    match pocsagFindBit (syndrome ^^^ synA) with
    | some b => if b > a then some (a, b) else none
    | none => none

def pocsagParity (word : ℕ) : ℕ := countOnes 32 word % 2

def pocsagBchDecode (word : ℕ) : Option (ℕ × ℕ) :=
  let syndrome := pocsagSyndrome (word >>> 1)
  let odd := pocsagParity word == 1
  if syndrome = 0 then
    some (if odd then (word ^^^ 1, 1) else (word, 0))
  else
    match pocsagFindBit syndrome with
    | some bit => some (word ^^^ (1 <<< (bit + 1) ||| (!odd).toNat), if odd then 1 else 2)
    | none =>
      if odd then none
      else (pocsagFindPair syndrome).map fun (a, b) ↦
        (word ^^^ 1 <<< (a + 1) ^^^ 1 <<< (b + 1), 2)

/-- The word is asserted to fit the data bits. -/
def pocsagBchEncode (word21 : ℕ) : ℕ :=
  let field := word21 <<< 10
  let word := (field ||| pocsagSyndrome field) <<< 1
  word ||| pocsagParity word

/-! ## The syndrome -/

theorem pocsagSyndrome_xor (first second : ℕ) :
    pocsagSyndrome (first ^^^ second) = pocsagSyndrome first ^^^ pocsagSyndrome second := by
  rw [pocsagSyndrome, pocsagSyndrome, pocsagSyndrome, Nat.xor_mod_two_pow, longDivision_xor]

theorem pocsagSyndrome_lt (field : ℕ) : pocsagSyndrome field < 2 ^ 10 :=
  longDivision_lt (by decide) (by decide) (Nat.mod_lt field (by decide))

theorem pocsagSyndrome_of_lt {field : ℕ} (hfield : field < 2 ^ 10) :
    pocsagSyndrome field = field := by
  have hmask : field % 2 ^ pocsagCodeBits = field :=
    Nat.mod_eq_of_lt (hfield.trans (by decide))
  rw [pocsagSyndrome, hmask, longDivision_of_lt hfield]

theorem pocsagSyndrome_nodup : ((lightWords 31 2).map pocsagSyndrome).Nodup := by
  have hdistinct : distinct ((lightWords 31 2).map pocsagSyndrome) 0 = true := by decide +kernel
  exact (nodup_of_distinct hdistinct).1

theorem pocsagFindBit_some {syndrome bit : ℕ} (hfind : pocsagFindBit syndrome = some bit) :
    bit < 31 ∧ pocsagSyndrome (1 <<< bit) = syndrome := by
  obtain ⟨hbit, hequal, -⟩ := List.findIdx?_eq_some_iff_getElem.mp hfind
  have hlength : pocsagBitSyndromes.length = 31 := by simp [pocsagBitSyndromes]
  refine ⟨hlength ▸ hbit, ?_⟩
  simpa [pocsagBitSyndromes] using hequal

theorem pocsagFindBit_ne_none {bit : ℕ} (hbit : bit < 31) :
    pocsagFindBit (pocsagSyndrome (1 <<< bit)) ≠ none := by
  intro hnone
  have hmem : pocsagSyndrome (1 <<< bit) ∈ pocsagBitSyndromes :=
    List.mem_map.mpr ⟨bit, List.mem_range.mpr hbit, rfl⟩
  have hdiffer := List.findIdx?_eq_none_iff.mp hnone _ hmem
  simp at hdiffer

set_option maxRecDepth 100000 in
/-- The one bit with its syndrome is found. -/
theorem pocsagFindBit_syndrome {bit : ℕ} (hbit : bit < 31) :
    pocsagFindBit (pocsagSyndrome (1 <<< bit)) = some bit := by
  obtain ⟨found, hfound⟩ := Option.ne_none_iff_exists'.mp (pocsagFindBit_ne_none hbit)
  obtain ⟨hlt, hequal⟩ := pocsagFindBit_some hfound
  have hlight : ∀ place < 31, 1 <<< place ∈ lightWords 31 2 := by decide
  have hsame := List.inj_on_of_nodup_map pocsagSyndrome_nodup (hlight found hlt) (hlight bit hbit) hequal
  rw [Nat.one_shiftLeft, Nat.one_shiftLeft] at hsame
  rw [hfound, Nat.pow_right_injective le_rfl hsame]

theorem pocsagBitSyndromes_getElem? {a synA : ℕ} :
    pocsagBitSyndromes[a]? = some synA ↔ a < 31 ∧ pocsagSyndrome (1 <<< a) = synA := by
  rw [pocsagBitSyndromes, List.getElem?_map, Option.map_eq_some_iff]
  constructor
  · rintro ⟨place, hplace, hsyndrome⟩
    obtain ⟨hlt, hequal⟩ := List.getElem?_eq_some_iff.mp hplace
    rw [List.getElem_range] at hequal
    rw [List.length_range] at hlt
    rw [hequal] at hlt ⊢
    exact ⟨hlt, hsyndrome⟩
  · rintro ⟨hlt, hsyndrome⟩
    exact ⟨a, List.getElem?_range hlt, hsyndrome⟩

theorem pocsagFindPair_some {syndrome a b : ℕ} (hfind : pocsagFindPair syndrome = some (a, b)) :
    a < b ∧ b < 31 ∧
      pocsagSyndrome (1 <<< a) ^^^ pocsagSyndrome (1 <<< b) = syndrome := by
  obtain ⟨⟨synA, place⟩, hmem, hpair⟩ := List.exists_of_findSome?_eq_some hfind
  obtain ⟨hplace, rfl⟩ := pocsagBitSyndromes_getElem?.mp (List.mk_mem_zipIdx_iff_getElem?.mp hmem)
  dsimp only at hpair
  split at hpair
  · rename_i other hother
    split at hpair
    · rename_i hgreater
      obtain ⟨rfl, rfl⟩ := Prod.mk.inj (Option.some.inj hpair)
      obtain ⟨hlt, hequal⟩ := pocsagFindBit_some hother
      refine ⟨hgreater, hlt, ?_⟩
      rw [hequal, Nat.xor_comm syndrome, Nat.xor_xor_cancel_left]
    · exact nomatch hpair
  · exact nomatch hpair

theorem pocsagFindPair_ne_none {a b : ℕ} (hab : a < b) (hb : b < 31) :
    pocsagFindPair (pocsagSyndrome (1 <<< a) ^^^ pocsagSyndrome (1 <<< b)) ≠ none := by
  intro hnone
  have ha := pocsagBitSyndromes_getElem?.mpr ⟨hab.trans hb, rfl⟩
  have hmiss := List.findSome?_eq_none_iff.mp hnone _ (List.mk_mem_zipIdx_iff_getElem?.mpr ha)
  have hother : pocsagSyndrome (1 <<< a) ^^^ pocsagSyndrome (1 <<< b) ^^^ pocsagSyndrome (1 <<< a) =
      pocsagSyndrome (1 <<< b) := by
    rw [Nat.xor_comm, Nat.xor_xor_cancel_left]
  dsimp only at hmiss
  rw [hother, pocsagFindBit_syndrome hb] at hmiss
  dsimp only at hmiss
  rw [if_pos hab] at hmiss
  exact nomatch hmiss

/-! ## Codewords -/

/-- Zero syndrome and even parity. -/
def Codeword (word : ℕ) : Prop := pocsagSyndrome (word >>> 1) = 0 ∧ pocsagParity word = 0

theorem Codeword.xor {first second : ℕ} (hfirst : Codeword first) (hsecond : Codeword second) :
    Codeword (first ^^^ second) := by
  have hparity := countOnes_xor_parity 32 first second
  have hfirstOnes : countOnes 32 first % 2 = 0 := hfirst.2
  have hsecondOnes : countOnes 32 second % 2 = 0 := hsecond.2
  constructor
  · rw [Nat.shiftRight_xor_distrib, pocsagSyndrome_xor, hfirst.1, hsecond.1]
    rfl
  · change countOnes 32 (first ^^^ second) % 2 = 0
    omega

theorem Codeword.eq_zero {word : ℕ} (hcode : Codeword word) (hword : word < 2 ^ 32)
    (hlight : countOnes 32 word ≤ 5) : word = 0 := by
  have heven : countOnes 32 word % 2 = 0 := hcode.2
  have hshift : countOnes 32 word = countOnes 31 (word >>> 1) + (word.testBit 0).toNat :=
    countOnes_shiftRight 31 word
  have hfield : word >>> 1 < 2 ^ 31 := by
    rw [Nat.shiftRight_eq_div_pow]
    omega
  have hzero := eq_zero_of_syndrome pocsagSyndrome_xor pocsagSyndrome_nodup hfield hcode.1 (by omega)
  have hsmall : word < 2 := by
    rw [Nat.shiftRight_eq_div_pow] at hzero
    omega
  have hone : countOnes 32 1 = 1 := by decide
  interval_cases word
  · rfl
  · rw [hone] at heven
    exact absurd heven (by decide)

/-- Two codewords within reach of one word are the same. -/
theorem Codeword.unique {first second word : ℕ} (hfirst : Codeword first) (hsecond : Codeword second)
    (hfirstLt : first < 2 ^ 32) (hsecondLt : second < 2 ^ 32)
    (hnear : countOnes 32 (word ^^^ first) + countOnes 32 (word ^^^ second) ≤ 5) :
    first = second := by
  have hsum : word ^^^ first ^^^ (word ^^^ second) = first ^^^ second := by
    rw [Nat.xor_comm word first, Nat.xor_assoc, Nat.xor_xor_cancel_left]
  have htriangle := countOnes_xor_le 32 (word ^^^ first) (word ^^^ second)
  rw [hsum] at htriangle
  have hzero := (hfirst.xor hsecond).eq_zero (Nat.xor_lt_two_pow hfirstLt hsecondLt) (by omega)
  exact Nat.eq_of_xor_eq_zero hzero

theorem codeword_encode {word21 : ℕ} (hword : word21 < 2 ^ pocsagDataBits) :
    pocsagBchEncode word21 < 2 ^ 32 ∧ Codeword (pocsagBchEncode word21) := by
  have hfield : word21 <<< 10 < 2 ^ 31 := by
    rw [Nat.shiftLeft_eq]
    have hbits : word21 < 2 ^ 21 := hword
    omega
  have hsyndrome := pocsagSyndrome_lt (word21 <<< 10)
  -- The check bits go where the shifted data has zeros.
  have hdisjoint := shiftLeft_or_eq_xor hsyndrome word21
  have hchecked : pocsagSyndrome (word21 <<< 10 ||| pocsagSyndrome (word21 <<< 10)) = 0 := by
    rw [hdisjoint, pocsagSyndrome_xor, pocsagSyndrome_of_lt hsyndrome, Nat.xor_self]
  have hlt : word21 <<< 10 ||| pocsagSyndrome (word21 <<< 10) < 2 ^ 31 :=
    Nat.or_lt_two_pow hfield (hsyndrome.trans (by decide))
  unfold pocsagBchEncode Codeword
  dsimp only
  generalize word21 <<< 10 ||| pocsagSyndrome (word21 <<< 10) = field at hchecked hlt
  have hparity : pocsagParity (field <<< 1) < 2 ^ 1 := Nat.mod_lt _ (by decide)
  have hor := shiftLeft_or_eq_xor hparity field
  have hshifted : (field <<< 1 ^^^ pocsagParity (field <<< 1)) >>> 1 = field := by
    rw [Nat.shiftRight_xor_distrib, Nat.shiftLeft_shiftRight,
      Nat.shiftRight_eq_zero _ _ hparity, Nat.xor_zero]
  have hones : countOnes 32 (pocsagParity (field <<< 1)) = pocsagParity (field <<< 1) := by
    have hbits : ∀ parity < 2, countOnes 32 parity = parity := by decide
    exact hbits _ hparity
  rw [hor, hshifted]
  refine ⟨?_, hchecked, ?_⟩
  · refine Nat.xor_lt_two_pow ?_ (hparity.trans (by decide))
    rw [Nat.shiftLeft_eq]
    omega
  · have hsum := countOnes_xor_parity 32 (field <<< 1) (pocsagParity (field <<< 1))
    rw [hones] at hsum
    rw [pocsagParity, hsum, pocsagParity]
    omega

/-! ## The decoder -/

/-- What the decoder promises of a codeword it returns. -/
def Found (word codeword n : ℕ) : Prop :=
  codeword < 2 ^ 32 ∧ Codeword codeword ∧ countOnes 32 (word ^^^ codeword) = n

/-- A correction with the word's syndrome and parity leaves a codeword. -/
theorem found_xor {word fix n : ℕ} (hword : word < 2 ^ 32) (hfix : fix < 2 ^ 32)
    (hsyndrome : pocsagSyndrome (fix >>> 1) = pocsagSyndrome (word >>> 1))
    (hparity : pocsagParity fix = pocsagParity word) (hones : countOnes 32 fix = n) :
    Found word (word ^^^ fix) n := by
  refine ⟨Nat.xor_lt_two_pow hword hfix, ⟨?_, ?_⟩, ?_⟩
  · rw [Nat.shiftRight_xor_distrib, pocsagSyndrome_xor, hsyndrome, Nat.xor_self]
  · have hsum := countOnes_xor_parity 32 word fix
    unfold pocsagParity at hparity ⊢
    omega
  · rw [Nat.xor_xor_cancel_left, hones]

theorem bitFix : ∀ bit < 31, ∀ odd : Bool,
    1 <<< (bit + 1) ||| (!odd).toNat < 2 ^ 32 ∧
      (1 <<< (bit + 1) ||| (!odd).toNat) >>> 1 = 1 <<< bit ∧
      countOnes 32 (1 <<< (bit + 1) ||| (!odd).toNat) = if odd then 1 else 2 := by
  decide

theorem pairFix : ∀ b < 31, ∀ a < b,
    1 <<< (a + 1) ^^^ 1 <<< (b + 1) < 2 ^ 32 ∧
      (1 <<< (a + 1) ^^^ 1 <<< (b + 1)) >>> 1 = 1 <<< a ^^^ 1 <<< b ∧
      countOnes 32 (1 <<< (a + 1) ^^^ 1 <<< (b + 1)) = 2 := by
  decide

set_option maxRecDepth 100000 in
theorem pocsagBchDecode_found {word codeword n : ℕ} (hword : word < 2 ^ 32)
    (hdecode : pocsagBchDecode word = some (codeword, n)) : Found word codeword n ∧ n ≤ 2 := by
  have hparity : pocsagParity word < 2 := Nat.mod_lt _ (by decide)
  unfold pocsagBchDecode at hdecode
  dsimp only at hdecode
  split at hdecode
  · rename_i hclean
    split at hdecode
    · rename_i hodd
      obtain ⟨rfl, rfl⟩ := Prod.mk.inj (Option.some.inj hdecode)
      refine ⟨found_xor hword (by decide) ?_ ?_ ?_, by decide⟩
      · rw [hclean]
        decide
      · rw [eq_of_beq hodd]
        decide
      · decide
    · rename_i hodd
      obtain ⟨rfl, rfl⟩ := Prod.mk.inj (Option.some.inj hdecode)
      rw [beq_iff_eq] at hodd
      refine ⟨⟨hword, ⟨hclean, by omega⟩, ?_⟩, by decide⟩
      rw [Nat.xor_self]
      decide
  · split at hdecode
    · rename_i bit hbit
      obtain ⟨rfl, rfl⟩ := Prod.mk.inj (Option.some.inj hdecode)
      obtain ⟨hlt, hsyndrome⟩ := pocsagFindBit_some hbit
      obtain ⟨hfix, hshift, hones⟩ := bitFix bit hlt (pocsagParity word == 1)
      refine ⟨found_xor hword hfix ?_ ?_ hones, ?_⟩
      · rw [hshift, hsyndrome]
      · rw [pocsagParity, hones]
        split
        · rename_i hodd
          exact (eq_of_beq hodd).symm
        · rename_i hodd
          rw [beq_iff_eq] at hodd
          omega
      · split <;> decide
    · split at hdecode
      · exact nomatch hdecode
      · rename_i heven
        rw [beq_iff_eq] at heven
        obtain ⟨⟨a, b⟩, hpair, hequal⟩ := Option.map_eq_some_iff.mp hdecode
        obtain ⟨rfl, rfl⟩ := Prod.mk.inj hequal
        obtain ⟨hab, hb, hsyndrome⟩ := pocsagFindPair_some hpair
        obtain ⟨hfix, hshift, hones⟩ := pairFix b hb a hab
        rw [Nat.xor_assoc]
        refine ⟨found_xor hword hfix ?_ ?_ hones, le_rfl⟩
        · rw [hshift, pocsagSyndrome_xor, hsyndrome]
        · rw [pocsagParity, hones]
          omega

set_option maxRecDepth 100000 in
/-- Up to two flipped bits leave zero, one or two of them in the field. -/
theorem error_cases {error : ℕ} (herror : error < 2 ^ 32) (hlight : countOnes 32 error ≤ 2) :
    pocsagSyndrome (error >>> 1) = 0 ∨
      (∃ bit < 31, pocsagSyndrome (error >>> 1) = pocsagSyndrome (1 <<< bit)) ∨
      ∃ a b, a < b ∧ b < 31 ∧ pocsagParity error = 0 ∧
        pocsagSyndrome (error >>> 1) =
          pocsagSyndrome (1 <<< a) ^^^ pocsagSyndrome (1 <<< b) := by
  have hfield : error >>> 1 < 2 ^ 31 := by
    rw [Nat.shiftRight_eq_div_pow]
    omega
  have hshift : countOnes 32 error = countOnes 31 (error >>> 1) + (error.testBit 0).toNat :=
    countOnes_shiftRight 31 error
  have hbit {word place : ℕ} (hplace : place < 31) (hword : word < 2 ^ 31)
      (hones : countOnes 31 (word ^^^ 2 ^ place) = 0) : word = 2 ^ place := by
    exact Nat.eq_of_xor_eq_zero (eq_zero_of_countOnes (flip_lt hword hplace) hones)
  match hcount : countOnes 31 (error >>> 1) with
  | 0 =>
    rw [eq_zero_of_countOnes hfield hcount]
    left
    decide
  | 1 =>
    obtain ⟨place, hplace, hones⟩ := exists_flip hcount
    rw [hbit hplace hfield hones, ← Nat.one_shiftLeft]
    exact Or.inr (Or.inl ⟨place, hplace, rfl⟩)
  | 2 =>
    obtain ⟨a, ha, hones⟩ := exists_flip hcount
    obtain ⟨b, hb, hrest⟩ := exists_flip hones
    have hsecond := hbit hb (flip_lt hfield ha) hrest
    have hpair : error >>> 1 = 1 <<< a ^^^ 1 <<< b := by
      rw [Nat.one_shiftLeft, Nat.one_shiftLeft, ← hsecond, Nat.xor_comm (2 ^ a),
        Nat.xor_xor_cancel_right]
    have heven : pocsagParity error = 0 := by
      rw [pocsagParity]
      omega
    have hdiffer : a ≠ b := by
      rintro rfl
      rw [hpair, Nat.xor_self] at hcount
      exact absurd hcount (by decide)
    rw [hpair, pocsagSyndrome_xor]
    rcases Nat.lt_or_gt_of_ne hdiffer with hab | hba
    · exact Or.inr (Or.inr ⟨a, b, hab, hb, heven, rfl⟩)
    · exact Or.inr (Or.inr ⟨b, a, hba, ha, heven, Nat.xor_comm _ _⟩)
  | count + 3 => omega

theorem pocsagBchDecode_ne_none {codeword error : ℕ} (hcode : Codeword codeword)
    (herror : error < 2 ^ 32) (hlight : countOnes 32 error ≤ 2) :
    pocsagBchDecode (codeword ^^^ error) ≠ none := by
  have hsyndrome : pocsagSyndrome ((codeword ^^^ error) >>> 1) = pocsagSyndrome (error >>> 1) := by
    rw [Nat.shiftRight_xor_distrib, pocsagSyndrome_xor, hcode.1, Nat.zero_xor]
  have hparity : pocsagParity (codeword ^^^ error) = pocsagParity error := by
    have hsum := countOnes_xor_parity 32 codeword error
    have heven : countOnes 32 codeword % 2 = 0 := hcode.2
    unfold pocsagParity
    omega
  unfold pocsagBchDecode
  dsimp only
  rw [hsyndrome, hparity]
  rcases error_cases herror hlight with hzero | ⟨bit, hbit, hsame⟩ | ⟨a, b, hab, hb, heven, hsame⟩
  · rw [if_pos hzero]
    exact Option.some_ne_none _
  · rw [hsame, pocsagFindBit_syndrome hbit]
    split <;> exact Option.some_ne_none _
  · rw [hsame, heven]
    split
    · exact Option.some_ne_none _
    · split
      · exact Option.some_ne_none _
      · rw [if_neg (by decide)]
        obtain ⟨pair, hpair⟩ := Option.ne_none_iff_exists'.mp (pocsagFindPair_ne_none hab hb)
        rw [hpair]
        exact Option.some_ne_none _

/-- Up to two errors are corrected and counted, three are always refused, and whatever is returned is
a codeword at the distance returned. -/
theorem pocsagBch_corrects :
    (∀ word21 < 2 ^ pocsagDataBits, ∀ error < 2 ^ 32,
      (countOnes 32 error ≤ 2 → pocsagBchDecode (pocsagBchEncode word21 ^^^ error) =
        some (pocsagBchEncode word21, countOnes 32 error)) ∧
      (countOnes 32 error = 3 → pocsagBchDecode (pocsagBchEncode word21 ^^^ error) = none)) ∧
    ∀ word < 2 ^ 32, ∀ codeword n, pocsagBchDecode word = some (codeword, n) →
      codeword < 2 ^ 32 ∧ pocsagSyndrome (codeword >>> 1) = 0 ∧ pocsagParity codeword = 0 ∧
        countOnes 32 (word ^^^ codeword) = n := by
  constructor
  · intro word21 hword21 error herror
    obtain ⟨hlt, hcode⟩ := codeword_encode hword21
    have hword := Nat.xor_lt_two_pow hlt herror
    have hdistance : pocsagBchEncode word21 ^^^ error ^^^ pocsagBchEncode word21 = error := by
      rw [Nat.xor_comm, Nat.xor_xor_cancel_left]
    have hsame (hlight : countOnes 32 error ≤ 3) {codeword n : ℕ}
        (hdecode : pocsagBchDecode (pocsagBchEncode word21 ^^^ error) = some (codeword, n)) :
        codeword = pocsagBchEncode word21 ∧ n = countOnes 32 error ∧ n ≤ 2 := by
      obtain ⟨⟨hcodewordLt, hcodeword, hn⟩, hnear⟩ := pocsagBchDecode_found hword hdecode
      have hequal : codeword = pocsagBchEncode word21 := by
        apply hcodeword.unique hcode hcodewordLt hlt 
        rw [hn, hdistance]
        omega
      rw [hequal, hdistance] at hn
      exact ⟨hequal, hn.symm, hnear⟩
    constructor
    · intro hlight
      obtain ⟨⟨codeword, n⟩, hdecode⟩ :=
        Option.ne_none_iff_exists'.mp (pocsagBchDecode_ne_none hcode herror hlight)
      obtain ⟨hequal, hn, -⟩ := hsame (Nat.le_succ_of_le hlight) hdecode
      rw [hdecode, hequal, hn]
    · intro hthree
      cases hdecode : pocsagBchDecode (pocsagBchEncode word21 ^^^ error) with
      | none => rfl
      | some found =>
        obtain ⟨codeword, n⟩ := found
        obtain ⟨-, hn, hnear⟩ := hsame hthree.le hdecode
        omega
  · intro word hword codeword n hdecode
    obtain ⟨⟨hlt, ⟨hsyndrome, hparity⟩, hn⟩, -⟩ := pocsagBchDecode_found hword hdecode
    exact ⟨hlt, hsyndrome, hparity, hn⟩

theorem pocsagBch_corrects_pair : countOnes 32 0x88 ≤ 2 ∧
    pocsagBchDecode (pocsagBchEncode 0x15555 ^^^ 0x88) =
      some (pocsagBchEncode 0x15555, countOnes 32 0x88) :=
  have hlight : countOnes 32 0x88 ≤ 2 := by decide
  ⟨hlight, (pocsagBch_corrects.1 0x15555 (by decide) 0x88 (by decide)).1 hlight⟩

end Sdrmm.PocsagBch
