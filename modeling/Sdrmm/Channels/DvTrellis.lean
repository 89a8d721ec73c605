import Mathlib.Data.List.GetD
import Sdrmm.Lib.FullTrellis
import Sdrmm.Lib.Numerals
import Sdrmm.Lib.Places

/-!
# The trellis codes of DMR and P25 data

`decode_rate_three_quarter` of `channels/src/dv/dmr.rs` and `decode_p25_trellis` of `channels/src/dv/p25.rs` with the
encoders of `channels/src/synth/dv`.  Both decoders run the add-compare-select of `FullTrellis`, so each returns a
payload whose transmission is nearest to what was received.
-/

namespace Sdrmm

open FullTrellis (pairs distance letterCost)

namespace Dv

def dibit (pair : Bool × Bool) : ℕ := pair.1.toNat <<< 1 ||| pair.2.toNat

def dibitBits (dibit : ℕ) : List Bool := [dibit &&& 2 ≠ 0, dibit &&& 1 ≠ 0]

def dibits (bits : List Bool) : List ℕ := (pairs bits).map dibit

theorem dibit_lt (pair : Bool × Bool) : dibit pair < 4 := by
  revert pair
  decide

theorem dibits_flatMap {values : List ℕ} (hvalues : ∀ value ∈ values, value < 4) :
    dibits (values.flatMap dibitBits) = values := by
  induction values with
  | nil => rfl
  | cons value values ih =>
    have hbits : ∀ value < 4, dibit (decide (value &&& 2 ≠ 0), decide (value &&& 1 ≠ 0)) = value := by
      decide
    rw [List.forall_mem_cons] at hvalues
    calc
      dibits ((value :: values).flatMap dibitBits) =
          dibit (decide (value &&& 2 ≠ 0), decide (value &&& 1 ≠ 0)) ::
            dibits (values.flatMap dibitBits) := rfl
      _ = value :: values := by
        rw [hbits value hvalues.1, ih hvalues.2]

end Dv

namespace Dmr

open Dv

/-- Where the dibit that travelled in air slot `index` belongs in the trellis sequence. -/
def trellisSlot (index : ℕ) : ℕ :=
  let (offset, lane) :=
    if index < 26 then (index, 0)
    else if index < 50 then (index - 26, 2)
    else if index < 74 then (index - 50, 4)
    else (index - 74, 6)
  offset / 2 * 8 + lane + offset % 2

def trellisNext : Vector (Vector (Fin 16) 8) 8 :=
  #v[#v[0, 8, 4, 12, 2, 10, 6, 14],
    #v[4, 12, 2, 10, 6, 14, 0, 8],
    #v[1, 9, 5, 13, 3, 11, 7, 15],
    #v[5, 13, 3, 11, 7, 15, 1, 9],
    #v[3, 11, 7, 15, 1, 9, 5, 13],
    #v[7, 15, 1, 9, 5, 13, 3, 11],
    #v[2, 10, 6, 14, 0, 8, 4, 12],
    #v[6, 14, 0, 8, 4, 12, 2, 10]]

def trellisMap : Vector (ℕ × ℕ) 16 :=
  #v[(0, 2), (2, 2), (1, 3), (3, 3), (3, 2), (1, 2), (2, 3), (0, 3),
    (3, 1), (1, 1), (2, 0), (0, 0), (0, 1), (2, 1), (1, 0), (3, 0)]

def trellisOutput (state input : Fin 8) : ℕ × ℕ := trellisMap[trellisNext[state][input]]

def tribit (high middle low : Bool) : Fin 8 :=
  ⟨high.toNat <<< 2 ||| middle.toNat <<< 1 ||| low.toNat, by revert high middle low; decide⟩

def tribits : List Bool → List (Fin 8)
  | high :: middle :: low :: rest => tribit high middle low :: tribits rest
  | _ => []

def tribitBits (tribit : Fin 8) : List Bool :=
  [(tribit : ℕ) &&& 4 ≠ 0, (tribit : ℕ) &&& 2 ≠ 0, (tribit : ℕ) &&& 1 ≠ 0]

def trellisEncode (payload : List Bool) : List Bool :=
  let points := FullTrellis.encode trellisOutput 0 (tribits payload ++ [0])
  (List.range 98).flatMap fun index ↦ dibitBits (points.getD (trellisSlot index) 0)

/-- The dibits on both sides of the slot type and the sync. -/
def airDibits (burst : List Bool) : List ℕ :=
  dibits (burst.take 98) ++ dibits ((burst.take 264).drop 166)

/-- The dibits in the order of the trellis. -/
def encodedDibits (burst : List Bool) : ℕ → ℕ :=
  Places.scatter ((List.range 98).map trellisSlot) (airDibits burst) fun _ ↦ 0

/-- The metrics are sixteen bits wide, and the largest value marks a state that was not reached. -/
def decodeRateThreeQuarter (burst : List Bool) : Option (List Bool) :=
  if burst.length < 264 then none
  else
    let encoded := encodedDibits burst
    let observed := (List.range 49).map fun step ↦ (encoded (step * 2), encoded (step * 2 + 1))
    let decoded := FullTrellis.decode (letterCost trellisOutput) (2 ^ 16 - 1) observed
    some ((decoded.take 48).flatMap tribitBits)

theorem trellisSlot_perm : ((List.range 98).map trellisSlot).Perm (List.range 98) := by
  decide

theorem trellisSlot_nodup : ((List.range 98).map trellisSlot).Nodup :=
  trellisSlot_perm.nodup_iff.mpr List.nodup_range

theorem trellisOutput_injective (state : Fin 8) : Function.Injective (trellisOutput state) := by
  revert state
  decide

theorem trellisOutput_lt : ∀ state input : Fin 8,
    (trellisOutput state input).1 < 4 ∧ (trellisOutput state input).2 < 4 := by
  decide

theorem tribits_flatMap (values : List (Fin 8)) : tribits (values.flatMap tribitBits) = values := by
  induction values with
  | nil => rfl
  | cons value values ih =>
    have hbits : ∀ value : Fin 8, tribit (decide ((value : ℕ) &&& 4 ≠ 0)) (decide ((value : ℕ) &&& 2 ≠ 0))
        (decide ((value : ℕ) &&& 1 ≠ 0)) = value := by
      decide
    calc
      tribits ((value :: values).flatMap tribitBits) =
          tribit (decide ((value : ℕ) &&& 4 ≠ 0)) (decide ((value : ℕ) &&& 2 ≠ 0))
            (decide ((value : ℕ) &&& 1 ≠ 0)) :: tribits (values.flatMap tribitBits) := rfl
      _ = value :: values := by rw [hbits, ih]

theorem length_flatMap_tribitBits (values : List (Fin 8)) :
    (values.flatMap tribitBits).length = values.length * 3 := by
  rw [List.length_flatMap]
  change (values.map fun _ ↦ 3).sum = values.length * 3
  rw [List.map_const', List.sum_replicate, smul_eq_mul]

theorem tribitBits_tribit (high middle low : Bool) :
    tribitBits (tribit high middle low) = [high, middle, low] := by
  revert high middle low
  decide

theorem flatMap_tribits (count : ℕ) {payload : List Bool} (hlength : payload.length = count * 3) :
    (tribits payload).length = count ∧ (tribits payload).flatMap tribitBits = payload := by
  induction count generalizing payload with
  | zero =>
    obtain rfl := List.length_eq_zero_iff.mp (hlength.trans (Nat.zero_mul 3))
    exact ⟨rfl, rfl⟩
  | succ count ih =>
    match payload, hlength with
    | [a], hlength =>
      rw [List.length_singleton] at hlength
      omega
    | [a, b], hlength =>
      simp only [List.length_cons, List.length_nil] at hlength
      omega
    | high :: middle :: low :: rest, hlength =>
      have hrest : rest.length = count * 3 := by
        simp only [List.length_cons] at hlength
        omega
      obtain ⟨hcount, hbits⟩ := ih hrest
      refine ⟨congrArg (· + 1) hcount, ?_⟩
      rw [tribits, List.flatMap_cons, tribitBits_tribit, hbits]
      rfl

/-- The letters of a payload in the order of the trellis. -/
def letters (values : List (Fin 8)) : List ℕ := FullTrellis.encode trellisOutput 0 (values ++ [0])

/-- On the air the letters of a payload stand in the order of the slots. -/
theorem dibits_trellisEncode (payload : List Bool) :
    dibits (trellisEncode payload) =
      ((List.range 98).map trellisSlot).map fun place ↦ (letters (tribits payload)).getD place 0 := by
  have hbits : trellisEncode payload = (((List.range 98).map trellisSlot).map fun place ↦
      (letters (tribits payload)).getD place 0).flatMap dibitBits := by
    rw [List.map_map, List.flatMap_map]
    rfl
  rw [hbits]
  apply dibits_flatMap
  intro value hvalue
  obtain ⟨place, -, rfl⟩ := List.mem_map.mp hvalue
  rw [List.getD_eq_getElem?_getD]
  cases hplace : (letters (tribits payload))[place]? with
  | none => exact Nat.succ_pos 3
  | some letter =>
    apply FullTrellis.forall_mem_encode trellisOutput (· < 4) trellisOutput_lt 0 _ letter
    exact List.mem_of_getElem? hplace

/-- The received dibits in the order of the trellis. -/
def heard (burst : List Bool) : List ℕ := (List.range 98).map (encodedDibits burst)

theorem airDibits_eq {burst : List Bool} (hlength : burst.length = 264) :
    airDibits burst = ((List.range 98).map trellisSlot).map (encodedDibits burst) := by
  have hfirst : (pairs (burst.take 98)).length = 49 := by
    apply FullTrellis.length_pairs 49
    rw [List.length_take, hlength]
    rfl
  have hsecond : (pairs ((burst.take 264).drop 166)).length = 49 := by
    apply FullTrellis.length_pairs 49
    rw [List.length_drop, List.length_take, hlength]
    rfl
  have hcount : (airDibits burst).length = ((List.range 98).map trellisSlot).length := by
    simp only [airDibits, dibits, List.length_append, List.length_map, hfirst, hsecond, List.length_range]
  exact (Places.gather_scatter trellisSlot_nodup hcount _).symm

theorem length_letters {payload : List Bool} (hlength : payload.length = 144) :
    (letters (tribits payload)).length = 98 := by
  rw [letters, FullTrellis.length_encode, List.length_append, (flatMap_tribits 48 hlength).1]
  rfl

/-- In the order of the trellis a payload is as far from what was received as on the air. -/
theorem distance_air {burst payload : List Bool} (hburst : burst.length = 264) (hpayload : payload.length = 144) :
    distance (dibits (trellisEncode payload)) (airDibits burst) =
      distance (letters (tribits payload)) (heard burst) := by
  have hletters := length_letters hpayload
  have hread : (List.range 98).map (fun place ↦ (letters (tribits payload)).getD place 0) =
      letters (tribits payload) := by
    apply List.ext_getElem
    · rw [List.length_map, List.length_range, hletters]
    · intro place _ hplace
      rw [List.getElem_map, List.getElem_range, List.getD_eq_getElem _ _ hplace]
  calc
    _ = distance ((List.range 98).map fun place ↦ (letters (tribits payload)).getD place 0)
          ((List.range 98).map (encodedDibits burst)) := by
      rw [dibits_trellisEncode, airDibits_eq hburst]
      exact FullTrellis.distance_map_perm trellisSlot_perm _ _
    _ = distance (letters (tribits payload)) (heard burst) := by rw [hread, heard]

/-- The decoder returns a payload whose transmission is nearest to the burst. -/
theorem decodeRateThreeQuarter_nearest {burst : List Bool} (hburst : burst.length = 264) :
    ∃ payload, decodeRateThreeQuarter burst = some payload ∧ payload.length = 144 ∧
      ∀ other : List Bool, other.length = 144 →
        distance (dibits (trellisEncode payload)) (airDibits burst) ≤
          distance (dibits (trellisEncode other)) (airDibits burst) := by
  have hheard : (heard burst).length = (48 + 1) * 2 := by
    rw [heard, List.length_map, List.length_range]
  obtain ⟨inputs, hinputs, hdecode, hbest⟩ :=
    FullTrellis.decode_nearest trellisOutput (2 ^ 16 - 1) hheard (by decide)
  have hlength : (inputs.flatMap tribitBits).length = 144 := by
    rw [length_flatMap_tribitBits, hinputs]
  refine ⟨inputs.flatMap tribitBits, ?_, hlength, ?_⟩
  · have hobserved : (List.range 49).map (fun step ↦
        (encodedDibits burst (step * 2), encodedDibits burst (step * 2 + 1))) = pairs (heard burst) := rfl
    rw [decodeRateThreeQuarter, if_neg (by omega)]
    dsimp only
    rw [hobserved, hdecode, List.take_left' hinputs]
  · intro other hother
    rw [distance_air hburst hlength, distance_air hburst hother, tribits_flatMap]
    exact hbest _ (flatMap_tribits 48 hother).1

/-- Payloads with the same transmission are the same. -/
theorem trellisEncode_injective {first second : List Bool} (hfirst : first.length = 144)
    (hsecond : second.length = 144)
    (hletters : letters (tribits first) = letters (tribits second)) : first = second := by
  have hinputs := FullTrellis.encode_injective trellisOutput trellisOutput_injective 0 hletters
  rw [← (flatMap_tribits 48 hfirst).2, ← (flatMap_tribits 48 hsecond).2,
    List.append_cancel_right hinputs]

theorem decodeRateThreeQuarter_unaltered {burst payload : List Bool} (hburst : burst.length = 264)
    (hpayload : payload.length = 144) (hheard : airDibits burst = dibits (trellisEncode payload)) :
    decodeRateThreeQuarter burst = some payload := by
  obtain ⟨decoded, hdecode, hdecoded, hbest⟩ := decodeRateThreeQuarter_nearest hburst
  have hnone : distance (letters (tribits decoded)) (heard burst) = 0 := by
    rw [← distance_air hburst hdecoded]
    apply Nat.le_zero.mp
    apply (hbest payload hpayload).trans
    rw [hheard, FullTrellis.distance_self]
  have hsent : distance (letters (tribits payload)) (heard burst) = 0 := by
    rw [← distance_air hburst hpayload, hheard, FullTrellis.distance_self]
  have hcount : ∀ sent : List Bool, sent.length = 144 →
      (letters (tribits sent)).length = (heard burst).length := by
    intro sent hlength
    rw [length_letters hlength, heard, List.length_map, List.length_range]
  have hletters : letters (tribits decoded) = letters (tribits payload) :=
    (FullTrellis.eq_of_distance (hcount decoded hdecoded) hnone).trans
      (FullTrellis.eq_of_distance (hcount payload hpayload) hsent).symm
  rw [hdecode, trellisEncode_injective hdecoded hpayload hletters]

end Dmr

namespace P25

open Dv

def output : Vector (Vector (ℕ × ℕ) 4) 4 :=
  #v[#v[(0, 2), (3, 0), (0, 1), (3, 3)],
    #v[(3, 2), (0, 0), (3, 1), (0, 3)],
    #v[(2, 1), (1, 3), (2, 2), (1, 0)],
    #v[(1, 1), (2, 3), (1, 2), (2, 0)]]

def trellisOutput (state input : Fin 4) : ℕ × ℕ := (output.get state).get input

def inputs (payload : List Bool) : List (Fin 4) :=
  (pairs payload).map fun pair ↦ ⟨dibit pair, dibit_lt pair⟩

def inputBits (input : Fin 4) : List Bool := dibitBits input

def trellisEncode (payload : List Bool) : List Bool :=
  (FullTrellis.encode trellisOutput 0 (inputs payload ++ [0])).flatMap dibitBits

section Copies

variable {α : Type*}

/-- `output[target..target + 4].copy_from_slice(&input[source..source + 4])` -/
def copyFour (input : List α) (target source : ℕ) (output : List α) : List α :=
  output.take target ++ (input.drop source).take 4 ++ output.drop (target + 4)

/-- Four bits at a time between the four stretches of the block and the plain order, and the last four to or from
the middle of the block. -/
def eachFour (copy : ℕ → ℕ → List α → List α) (blank : α) : List α :=
  let filled := (List.range 12).foldl (fun filled row ↦
    [0, 52, 100, 148].foldl (fun (filled : List α × ℕ) base ↦
      (copy (base + row * 4) filled.2 filled.1, filled.2 + 4)) filled)
    (List.replicate 196 blank, 0)
  copy 48 filled.2 filled.1

def interleaved (blank : α) (input : List α) : List α :=
  eachFour (fun place source output ↦ copyFour input place source output) blank

def deinterleaved (blank : α) (coded : List α) : List α :=
  eachFour (fun place target output ↦ copyFour coded target place output) blank

end Copies

def dataInterleave (input : List Bool) : List Bool := interleaved false input

def p25DataDeinterleave (coded : List Bool) : Option (List Bool) :=
  if coded.length = 196 then some (deinterleaved false coded) else none

/-- The metrics are sixteen bits wide, and the largest value marks a state that was not reached. -/
def decodeP25Trellis (coded : List Bool) : Option (List Bool) :=
  (p25DataDeinterleave coded).bind fun deinterleaved ↦
    let received := dibits deinterleaved
    if received.length = 98 then
      let decoded := FullTrellis.decode (letterCost trellisOutput) (2 ^ 16 - 1) (pairs received)
      some ((decoded.take 48).flatMap inputBits)
    else none

theorem trellisOutput_injective (state : Fin 4) : Function.Injective (trellisOutput state) := by
  revert state
  decide

theorem trellisOutput_lt : ∀ state input : Fin 4,
    (trellisOutput state input).1 < 4 ∧ (trellisOutput state input).2 < 4 := by
  decide

/-! ## The order of the block -/

section Order

variable {α β : Type*} (f : α → β)

theorem copyFour_map (input : List α) (target source : ℕ) (output : List α) :
    copyFour (input.map f) target source (output.map f) = (copyFour input target source output).map f := by
  simp only [copyFour, List.map_append, List.map_take, List.map_drop]

theorem eachFour_map {copy : ℕ → ℕ → List α → List α} {other : ℕ → ℕ → List β → List β}
    (hcopy : ∀ place plain output, other place plain (output.map f) = (copy place plain output).map f)
    (blank : α) : eachFour other (f blank) = (eachFour copy blank).map f := by
  have hrows : ∀ (rows bases : List ℕ) (filled : List α × ℕ),
      rows.foldl (fun filled row ↦ bases.foldl (fun (filled : List β × ℕ) base ↦
        (other (base + row * 4) filled.2 filled.1, filled.2 + 4)) filled)
        (Prod.map (List.map f) id filled) =
      Prod.map (List.map f) id (rows.foldl (fun filled row ↦
        bases.foldl (fun (filled : List α × ℕ) base ↦
          (copy (base + row * 4) filled.2 filled.1, filled.2 + 4)) filled) filled) := by
    intro rows bases filled
    apply List.foldl_hom
    intro filled row
    apply List.foldl_hom
    intro filled base
    exact Prod.ext (hcopy _ _ _) rfl
  have hblank : (List.replicate 196 (f blank), 0) =
      Prod.map (List.map f) id (List.replicate 196 blank, 0) := by
    rw [Prod.map_apply, List.map_replicate, id]
  unfold eachFour
  rw [hblank, hrows]
  exact hcopy _ _ _

/-- Moving what the letters stand for moves the letters. -/
theorem interleaved_map (blank : α) (input : List α) :
    interleaved (f blank) (input.map f) = (interleaved blank input).map f :=
  eachFour_map f (fun place source ↦ copyFour_map f input place source) blank

theorem deinterleaved_map (blank : α) (coded : List α) :
    deinterleaved (f blank) (coded.map f) = (deinterleaved blank coded).map f :=
  eachFour_map f (fun place target ↦ copyFour_map f coded target place) blank

set_option maxRecDepth 20000 in
theorem interleaved_deinterleaved_places :
    interleaved 196 (deinterleaved 196 (List.range 196)) = List.range 196 := by
  decide

set_option maxRecDepth 20000 in
theorem length_interleaved_places : (interleaved 196 (List.range 196)).length = 196 := by
  decide

set_option maxRecDepth 20000 in
theorem length_deinterleaved_places : (deinterleaved 196 (List.range 196)).length = 196 := by
  decide

set_option maxRecDepth 20000 in
theorem pairs_interleaved_places :
    (pairs (interleaved 196 (List.range 196))).Perm (pairs (List.range 196)) := by
  decide

/-- A block is what its places hold. -/
theorem map_places {block : List α} (blank : α) (hlength : block.length = 196) :
    (List.range 196).map (fun place ↦ block.getD place blank) = block := by
  apply List.ext_getElem
  · rw [List.length_map, List.length_range, hlength]
  · intro place _ hplace
    rw [List.getElem_map, List.getElem_range, List.getD_eq_getElem _ _ hplace]

theorem getD_outside {block : List α} (blank : α) (hlength : block.length = 196) :
    block.getD 196 blank = blank :=
  List.getD_eq_default _ _ hlength.le

end Order

theorem interleaved_eq {block : List Bool} (hlength : block.length = 196) :
    interleaved false block = (interleaved 196 (List.range 196)).map fun place ↦ block.getD place false := by
  rw [← interleaved_map, map_places false hlength, getD_outside false hlength]

theorem deinterleaved_eq {block : List Bool} (hlength : block.length = 196) :
    deinterleaved false block =
      (deinterleaved 196 (List.range 196)).map fun place ↦ block.getD place false := by
  rw [← deinterleaved_map, map_places false hlength, getD_outside false hlength]

theorem interleaved_deinterleaved {coded : List Bool} (hlength : coded.length = 196) :
    interleaved false (deinterleaved false coded) = coded := by
  have hmoved := interleaved_map (fun place ↦ coded.getD place false) 196 (deinterleaved 196 (List.range 196))
  rw [getD_outside false hlength, ← deinterleaved_eq hlength, interleaved_deinterleaved_places,
    map_places false hlength] at hmoved
  exact hmoved

/-- The interleaver moves whole dibits. -/
theorem distance_interleaved {first second : List Bool} (hfirst : first.length = 196)
    (hsecond : second.length = 196) :
    distance (dibits (interleaved false first)) (dibits (interleaved false second)) =
      distance (dibits first) (dibits second) := by
  have hdibits : ∀ block : List Bool, block.length = 196 →
      dibits (interleaved false block) = (pairs (interleaved 196 (List.range 196))).map (fun places ↦
        dibit (block.getD places.1 false, block.getD places.2 false)) := by
    intro block hblock
    rw [interleaved_eq hblock, dibits, FullTrellis.pairs_map, List.map_map]
    rfl
  have hplain : ∀ block : List Bool, block.length = 196 →
      dibits block = (pairs (List.range 196)).map (fun places ↦
        dibit (block.getD places.1 false, block.getD places.2 false)) := by
    intro block hblock
    conv_lhs => rw [← map_places false hblock]
    rw [dibits, FullTrellis.pairs_map, List.map_map]
    rfl
  rw [hdibits first hfirst, hdibits second hsecond, hplain first hfirst, hplain second hsecond]
  exact FullTrellis.distance_map_perm pairs_interleaved_places _ _

/-! ## The code -/

theorem inputs_flatMap (values : List (Fin 4)) :
    inputs (values.flatMap inputBits) = values := by
  have hdibits : dibits ((values.map Fin.val).flatMap dibitBits) = values.map Fin.val := by
    apply dibits_flatMap
    intro value hvalue
    obtain ⟨input, -, rfl⟩ := List.mem_map.mp hvalue
    exact input.isLt
  apply List.map_injective_iff.mpr Fin.val_injective
  rw [← hdibits, List.flatMap_map, inputs, dibits, List.map_map]
  rfl

theorem length_flatMap_dibitBits {ι : Type} (values : List ι) (f : ι → ℕ) :
    (values.flatMap (dibitBits ∘ f)).length = values.length * 2 := by
  rw [List.length_flatMap]
  change (values.map fun _ ↦ 2).sum = values.length * 2
  rw [List.map_const', List.sum_replicate, smul_eq_mul]

theorem length_inputs {payload : List Bool} (hlength : payload.length = 96) : (inputs payload).length = 48 := by
  rw [inputs, List.length_map, FullTrellis.length_pairs 48 hlength]

theorem flatMap_inputs {payload : List Bool} (hlength : payload.length = 96) :
    (inputs payload).flatMap inputBits = payload := by
  have hbits : ∀ pair : Bool × Bool, dibitBits (dibit pair) = [pair.1, pair.2] := by decide
  have hflat : ∀ bits : List Bool, bits.length % 2 = 0 →
      (pairs bits).flatMap (fun pair ↦ [pair.1, pair.2]) = bits := by
    intro bits
    fun_induction pairs bits with
    | case1 a b rest ih =>
      intro heven
      simp only [List.length_cons] at heven
      rw [List.flatMap_cons, ih (by omega)]
      rfl
    | case2 bits hshort =>
      intro heven
      rcases bits with _ | ⟨a, _ | ⟨b, rest⟩⟩
      · rfl
      · cases heven
      · exact absurd rfl (hshort a b rest)
  rw [inputs, List.flatMap_map]
  simp only [inputBits, hbits]
  exact hflat payload (by omega)

def letters (values : List (Fin 4)) : List ℕ := FullTrellis.encode trellisOutput 0 (values ++ [0])

theorem length_letters {values : List (Fin 4)} (hlength : values.length = 48) : (letters values).length = 98 := by
  rw [letters, FullTrellis.length_encode, List.length_append, hlength]
  rfl

theorem dibits_trellisEncode (payload : List Bool) :
    dibits (trellisEncode payload) = letters (inputs payload) :=
  dibits_flatMap (FullTrellis.forall_mem_encode trellisOutput (· < 4) trellisOutput_lt 0 _)

theorem length_trellisEncode {payload : List Bool} (hlength : payload.length = 96) :
    (trellisEncode payload).length = 196 := by
  have hbits : (trellisEncode payload).length = (letters (inputs payload)).length * 2 :=
    length_flatMap_dibitBits _ id
  rw [hbits, length_letters (length_inputs hlength)]

theorem length_interleaved {block : List Bool} (hlength : block.length = 196) :
    (interleaved false block).length = 196 := by
  rw [interleaved_eq hlength, List.length_map, length_interleaved_places]

theorem length_deinterleaved {coded : List Bool} (hlength : coded.length = 196) :
    (deinterleaved false coded).length = 196 := by
  rw [deinterleaved_eq hlength, List.length_map, length_deinterleaved_places]

/-- In the plain order a payload is as far from what was received as in the block. -/
theorem distance_block {coded payload : List Bool} (hcoded : coded.length = 196)
    (hpayload : payload.length = 96) :
    distance (dibits (dataInterleave (trellisEncode payload))) (dibits coded) =
      distance (letters (inputs payload)) (dibits (deinterleaved false coded)) := by
  have hmoved := distance_interleaved (length_trellisEncode hpayload) (length_deinterleaved hcoded)
  rw [interleaved_deinterleaved hcoded, dibits_trellisEncode] at hmoved
  exact hmoved

/-- The decoder returns a payload whose transmission is nearest to the block. -/
theorem decodeP25Trellis_nearest {coded : List Bool} (hcoded : coded.length = 196) :
    ∃ payload, decodeP25Trellis coded = some payload ∧ payload.length = 96 ∧
      ∀ other : List Bool, other.length = 96 →
        distance (dibits (dataInterleave (trellisEncode payload))) (dibits coded) ≤
          distance (dibits (dataInterleave (trellisEncode other))) (dibits coded) := by
  have hreceived : (dibits (deinterleaved false coded)).length = (48 + 1) * 2 := by
    rw [dibits, List.length_map, FullTrellis.length_pairs 98 (length_deinterleaved hcoded)]
  obtain ⟨values, hvalues, hdecode, hbest⟩ :=
    FullTrellis.decode_nearest trellisOutput (2 ^ 16 - 1) hreceived (by decide)
  have hlength : (values.flatMap inputBits).length = 96 := by
    rw [show values.flatMap inputBits = values.flatMap (dibitBits ∘ Fin.val) from rfl,
      length_flatMap_dibitBits, hvalues]
  refine ⟨values.flatMap inputBits, ?_, hlength, ?_⟩
  · rw [decodeP25Trellis, p25DataDeinterleave, if_pos hcoded, Option.bind_some]
    dsimp only
    rw [if_pos hreceived, hdecode, List.take_left' hvalues]
  · intro other hother
    rw [distance_block hcoded hlength, distance_block hcoded hother, inputs_flatMap]
    exact hbest _ (length_inputs hother)

theorem decodeP25Trellis_unaltered {payload : List Bool} (hpayload : payload.length = 96) :
    decodeP25Trellis (dataInterleave (trellisEncode payload)) = some payload := by
  have hlength := length_trellisEncode hpayload
  have hcoded : (dataInterleave (trellisEncode payload)).length = 196 := length_interleaved hlength
  obtain ⟨decoded, hdecode, hdecoded, hbest⟩ := decodeP25Trellis_nearest hcoded
  have hletters : ∀ sent : List Bool, sent.length = 96 →
      distance (dibits (dataInterleave (trellisEncode sent)))
          (dibits (dataInterleave (trellisEncode payload))) =
        distance (letters (inputs sent)) (letters (inputs payload)) := by
    intro sent hsent
    rw [dataInterleave, dataInterleave, distance_interleaved (length_trellisEncode hsent) hlength,
      dibits_trellisEncode, dibits_trellisEncode]
  have hnone : distance (letters (inputs decoded)) (letters (inputs payload)) = 0 := by
    have hclosest := hbest payload hpayload
    rw [hletters decoded hdecoded, hletters payload hpayload, FullTrellis.distance_self] at hclosest
    exact Nat.le_zero.mp hclosest
  have hsame : letters (inputs decoded) = letters (inputs payload) := by
    apply FullTrellis.eq_of_distance _ hnone
    rw [length_letters (length_inputs hdecoded), length_letters (length_inputs hpayload)]
  have hinputs := FullTrellis.encode_injective trellisOutput trellisOutput_injective 0 hsame
  rw [hdecode, ← flatMap_inputs hdecoded, ← flatMap_inputs hpayload, List.append_cancel_right hinputs]

end P25

namespace Dv

/-- Both decoders return a payload whose transmission differs from what was received in the fewest dibits, and the
payload that was sent where no dibit was altered. -/
theorem trellis_nearest :
    (∀ burst : List Bool, burst.length = 264 →
      ∃ payload, Dmr.decodeRateThreeQuarter burst = some payload ∧ payload.length = 144 ∧
        ∀ other : List Bool, other.length = 144 →
          distance (dibits (Dmr.trellisEncode payload)) (Dmr.airDibits burst) ≤
            distance (dibits (Dmr.trellisEncode other)) (Dmr.airDibits burst)) ∧
    (∀ coded : List Bool, coded.length = 196 →
      ∃ payload, P25.decodeP25Trellis coded = some payload ∧ payload.length = 96 ∧
        ∀ other : List Bool, other.length = 96 →
          distance (dibits (P25.dataInterleave (P25.trellisEncode payload))) (dibits coded) ≤
            distance (dibits (P25.dataInterleave (P25.trellisEncode other))) (dibits coded)) ∧
    (∀ payload burst : List Bool, payload.length = 144 → burst.length = 264 →
      Dmr.airDibits burst = dibits (Dmr.trellisEncode payload) →
        Dmr.decodeRateThreeQuarter burst = some payload) ∧
    ∀ payload : List Bool, payload.length = 96 →
      P25.decodeP25Trellis (P25.dataInterleave (P25.trellisEncode payload)) = some payload :=
  ⟨fun _ ↦ Dmr.decodeRateThreeQuarter_nearest, fun _ ↦ P25.decodeP25Trellis_nearest,
    fun _ _ hpayload hburst ↦ Dmr.decodeRateThreeQuarter_unaltered hburst hpayload,
    fun _ ↦ P25.decodeP25Trellis_unaltered⟩

/-- A payload of zeros around a slot type and a sync of zeros. -/
def idleBurst : List Bool :=
  (Dmr.trellisEncode (List.replicate 144 false)).take 98 ++ List.replicate 68 false ++
    (Dmr.trellisEncode (List.replicate 144 false)).drop 98

set_option maxRecDepth 20000 in
theorem trellis_nearest_blank :
    (∃ payload, Dmr.decodeRateThreeQuarter (List.replicate 264 false) = some payload ∧
      payload.length = 144 ∧
      ∀ other : List Bool, other.length = 144 →
        distance (dibits (Dmr.trellisEncode payload)) (Dmr.airDibits (List.replicate 264 false)) ≤
          distance (dibits (Dmr.trellisEncode other)) (Dmr.airDibits (List.replicate 264 false))) ∧
    (∃ payload, P25.decodeP25Trellis (List.replicate 196 false) = some payload ∧ payload.length = 96 ∧
      ∀ other : List Bool, other.length = 96 →
        distance (dibits (P25.dataInterleave (P25.trellisEncode payload)))
            (dibits (List.replicate 196 false)) ≤
          distance (dibits (P25.dataInterleave (P25.trellisEncode other)))
            (dibits (List.replicate 196 false))) ∧
    Dmr.decodeRateThreeQuarter idleBurst = some (List.replicate 144 false) ∧
    P25.decodeP25Trellis (P25.dataInterleave (P25.trellisEncode (List.replicate 96 true))) =
      some (List.replicate 96 true) :=
  ⟨trellis_nearest.1 _ List.length_replicate, trellis_nearest.2.1 _ List.length_replicate,
    trellis_nearest.2.2.1 _ _ List.length_replicate rfl (by decide),
    trellis_nearest.2.2.2 _ List.length_replicate⟩

end Dv

end Sdrmm
