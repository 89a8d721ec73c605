import Sdrmm.Dsp.Ccsds

/-!
# Interleaved codewords

A burst meets each lane of a block in at most as many bytes as it is rows long, so one of sixteen rows
leaves no codeword with more than sixteen errors.  The codewords of a block are decoded independently of
each other.
-/

namespace Sdrmm.Ccsds

open Rs256

namespace CcsdsReedSolomon

/-! ## Codewords -/

/-- The data with its parity behind it. -/
def codeword (data : List UInt8) : List UInt8 := data ++ new.encode data

/-- A word that is what its own data would be sent as. -/
def IsCodeword (word : List UInt8) : Prop :=
  word.length = ccsdsBlock ∧ word = codeword (word.take ccsdsData)

theorem code_new : new.code = ReedSolomon.new rootPoly firstRoot ccsdsParity := by
  unfold new
  generalize Field.new fieldPoly = conventional
  generalize Field.new rootPoly = rooted
  generalize ReedSolomon.new rootPoly firstRoot ccsdsParity = code
  rfl

theorem mapTo_zero : new.mapTo 0 = 0 := by
  have hdual : dualToConventional.getD (0 : UInt8).toNat 0 = 0 := by
    have hzero : dualOf 0 = 0 := by decide
    have hentry := getD_dualToConventional (by decide : 0 < 256)
    rw [hzero] at hentry
    exact hentry
  rw [mapTo_new, slot, hdual]
  exact if_pos rfl

theorem map_map_of_leftInverse {f g : UInt8 → UInt8} (hinverse : Function.LeftInverse g f)
    (word : List UInt8) : (word.map f).map g = word := by
  rw [List.map_map, hinverse.comp_eq_id, List.map_id]

/-- The codeword of the code in its own basis. -/
theorem map_codeword {data : List UInt8} (hdata : data.length = ccsdsData) :
    (codeword data).map new.mapTo =
      (ReedSolomon.new rootPoly firstRoot ccsdsParity).encode (data.map new.mapTo) [] := by
  obtain ⟨-, hfront⟩ := encode_systematic rootPoly_isPrimitive firstRoot ccsdsParity
    (data.map new.mapTo)
  rw [List.length_map, hdata] at hfront
  rw [codeword, encode, List.map_append, map_map_of_leftInverse mapTo_mapFrom, code_new]
  conv_rhs => rw [← List.take_append_drop ccsdsData (ReedSolomon.encode _ _ _), hfront]

theorem length_codeword {data : List UInt8} (hdata : data.length = ccsdsData) :
    (codeword data).length = ccsdsBlock := by
  have hlength := (encode_systematic rootPoly_isPrimitive firstRoot ccsdsParity
    (data.map new.mapTo)).1
  rw [← map_codeword hdata, List.length_map, List.length_map, hdata] at hlength
  exact hlength

theorem length_decode (rs : CcsdsReedSolomon) (word : List UInt8) :
    (rs.decode word).2.length = word.length := by
  unfold decode
  dsimp only
  rw [List.length_map, Rs256.length_decode, List.length_map]

/-- Up to sixteen wrong bytes of a codeword are put right. -/
theorem decode_codeword {data received : List UInt8} (hdata : data.length = ccsdsData)
    (hreceived : received.length = ccsdsBlock)
    (hfew : (List.range ccsdsBlock).countP
      (fun i ↦ received.getD i 0 ≠ (codeword data).getD i 0) ≤ 16) :
    new.decode received = (some ((List.range ccsdsBlock).countP
      fun i ↦ received.getD i 0 ≠ (codeword data).getD i 0), codeword data) := by
  have hwrong : (errorIndices ((codeword data).map new.mapTo) (received.map new.mapTo) []).length =
      (List.range ccsdsBlock).countP
        (fun i ↦ received.getD i 0 ≠ (codeword data).getD i 0) := by
    unfold errorIndices
    rw [List.countP_eq_length_filter, List.length_map, hreceived]
    congr 2
    funext i
    have hsymbol (word : List UInt8) :
        (word.map new.mapTo).getD i 0 = new.mapTo (word.getD i 0) := by
      have hentry := List.getD_map (l := word) (d := 0) (n := i) new.mapTo
      rw [mapTo_zero] at hentry
      exact hentry
    rw [hsymbol, hsymbol]
    simp only [List.not_mem_nil, not_false_eq_true, true_and, mapFrom_mapTo.injective.ne_iff]
  have hdecode := errors_within_distance rootPoly_isPrimitive firstRoot ccsdsParity
    (data.map new.mapTo) (received.map new.mapTo)
    (by rw [List.length_map, hdata]; decide)
    (by rw [List.length_map, List.length_map, hdata, hreceived]; decide)
  rw [← map_codeword hdata, hwrong] at hdecode
  have hbudget := hdecode (by change _ ≤ 32; omega)
  unfold decode
  rw [code_new, hbudget]
  dsimp only
  rw [map_map_of_leftInverse mapFrom_mapTo]

/-- A word that is not put right is left as it is, any other becomes a codeword. -/
theorem decode_cases {word : List UInt8} (hword : word.length = ccsdsBlock) :
    new.decode word = (none, word) ∨
      ∃ n word', new.decode word = (some n, word') ∧ IsCodeword word' := by
  have : Fact (Irreducible (BinaryField.bitPoly rootPoly.toNat)) :=
    ⟨rootPoly_isPrimitive.irreducible⟩
  have hrep := new_represents rootPoly_isPrimitive firstRoot ccsdsParity
  have hform := new_wellFormed rootPoly firstRoot ccsdsParity
  have hlength := Rs256.length_decode (ReedSolomon.new rootPoly firstRoot ccsdsParity)
    (word.map new.mapTo)
  rw [List.length_map, hword] at hlength
  unfold decode
  rw [code_new]
  rcases hrep.decode_cases hform (word.map new.mapTo) with hnone | ⟨n, word', hsome, hcodeword⟩
  · left
    rw [hnone]
    dsimp only
    rw [map_map_of_leftInverse mapFrom_mapTo]
  · right
    rw [hsome] at hlength ⊢
    dsimp only at hlength ⊢
    refine ⟨n, _, rfl, ?_⟩
    let sent := (word'.map new.mapFrom).take ccsdsData
    have hsent : sent.length = ccsdsData := by
      rw [List.length_take, List.length_map, hlength]
      rfl
    obtain ⟨hlong, hfront, hroots⟩ := hrep.encode_spec hform (sent.map new.mapTo)
    rw [← map_codeword hsent] at hlong hfront hroots
    have hsame : word'.take ccsdsData = ((codeword sent).map new.mapTo).take ccsdsData := by
      rw [List.length_map, hsent] at hfront
      rw [hfront, List.map_take, map_map_of_leftInverse mapTo_mapFrom]
    have hcodewordLength : ((codeword sent).map new.mapTo).length = ccsdsBlock := by
      rw [List.length_map, length_codeword hsent]
    have hdiffer : Differ ((codeword sent).map new.mapTo) word' (Finset.range 32) := by
      constructor
      · exact hlength.trans hcodewordLength.symm
      · intro position hmem
        have hlt := Finset.mem_range.mp hmem
        rw [hlength]
        exact hlt.trans (by decide)
      · intro position hlt hnotMem
        rw [Finset.mem_range, not_lt] at hnotMem
        have hindex : word'.length - 1 - position < ccsdsData := by
          rw [hlength] at hlt ⊢
          change position < 255 at hlt
          change 255 - 1 - position < 223
          omega
        have hentry := congrArg (fun front ↦ front.getD (word'.length - 1 - position) 0) hsame
        rw [SymbolArray.getD_take, SymbolArray.getD_take, if_pos hindex, if_pos hindex] at hentry
        exact hentry
    have hequal := hrep.eq_of_differ hdiffer hroots hcodeword (by rw [hlength]; rfl)
      (by rw [Finset.card_range]; rfl)
    constructor
    · rw [List.length_map, hlength]
    · rw [hequal, map_map_of_leftInverse mapFrom_mapTo]
      have htake : (codeword sent).take ccsdsData = sent := List.take_left' hsent
      rw [htake]

/-! ## Lanes -/

/-- The word that a block holds in a lane. -/
def laneOf (depth lane : ℕ) (block : List UInt8) : List UInt8 :=
  Lanes.read 0 depth lane ccsdsBlock block

theorem length_laneOf (depth lane : ℕ) (block : List UInt8) :
    (laneOf depth lane block).length = ccsdsBlock := Lanes.length_read _ _

/-- What becomes of a lane. -/
def repaired (rs : CcsdsReedSolomon) (word : List UInt8) : List UInt8 :=
  if (rs.decode word).1.isSome then (rs.decode word).2 else word

/-- A block of which the first lanes have been decoded. -/
structure Lanewise (rs : CcsdsReedSolomon) (depth : ℕ) (block : List UInt8) (done : ℕ)
    (state : List UInt8 × InterleavedOutcome) : Prop where
  length : state.1.length = block.length
  decoded : ∀ lane < done, laneOf depth lane state.1 = rs.repaired (laneOf depth lane block)
  waiting : ∀ lane < depth, done ≤ lane → laneOf depth lane state.1 = laneOf depth lane block
  beyond : ∀ i, depth * ccsdsBlock ≤ i → state.1.getD i 0 = block.getD i 0
  corrected : state.2.corrected =
    ((List.range done).map fun lane ↦ (rs.decode (laneOf depth lane block)).1.getD 0).sum
  failed : state.2.failed =
    (List.range done).countP fun lane ↦ (rs.decode (laneOf depth lane block)).1.isNone

variable {rs : CcsdsReedSolomon} {depth done : ℕ} {block : List UInt8}
  {state : List UInt8 × InterleavedOutcome}

theorem Lanewise.step (hlanes : Lanewise rs depth block done state) (hdone : done < depth)
    (hblock : depth * ccsdsBlock ≤ block.length) :
    Lanewise rs depth block (done + 1) (rs.decodeLane depth state done) := by
  have hwaiting := hlanes.waiting done hdone le_rfl
  have hfits : ccsdsBlock * depth ≤ state.1.length := by
    rw [hlanes.length, Nat.mul_comm]
    exact hblock
  have hlength := rs.length_decode (laneOf depth done block)
  rw [length_laneOf] at hlength
  have hread : Lanes.read 0 depth done ccsdsBlock state.1 = laneOf depth done block := hwaiting
  unfold decodeLane
  dsimp only
  rw [hread]
  rcases hdecode : rs.decode (laneOf depth done block) with ⟨_ | corrected, codeword⟩
  · constructor
    · exact hlanes.length
    · intro lane hlane
      rcases Nat.lt_succ_iff_lt_or_eq.mp hlane with hlow | rfl
      · exact hlanes.decoded lane hlow
      · dsimp only
        rw [hwaiting, repaired, hdecode]
        rfl
    · intro lane hlane hlow
      exact hlanes.waiting lane hlane (Nat.le_of_succ_le hlow)
    · exact hlanes.beyond
    · dsimp only
      rw [List.range_succ, List.map_append, List.sum_append, ← hlanes.corrected, List.map_singleton,
        List.sum_singleton, hdecode]
      rfl
    · dsimp only
      rw [List.range_succ, List.countP_append, ← hlanes.failed, List.countP_singleton, hdecode]
      rfl
  · rw [hdecode] at hlength
    constructor
    · exact (Lanes.length_write _ _).trans hlanes.length
    · intro lane hlane
      dsimp only
      rcases Nat.lt_succ_iff_lt_or_eq.mp hlane with hlow | rfl
      · rw [← hlanes.decoded lane hlow]
        exact Lanes.read_write_of_ne hdone (hlow.trans hdone) hlow.ne _ _ _
      · rw [repaired, hdecode]
        exact Lanes.read_write_self hdone hlength hfits
    · intro lane hlane hlow
      rw [← hlanes.waiting lane hlane (Nat.le_of_succ_le hlow)]
      exact Lanes.read_write_of_ne hdone hlane (Nat.lt_of_succ_le hlow).ne' _ _ _
    · intro i hi
      rw [← hlanes.beyond i hi]
      apply Lanes.getD_write_of_ne
      intro index hindex
      have hplace := Lanes.place_lt hdone hindex
      dsimp only at hlength
      rw [hlength, Nat.mul_comm ccsdsBlock] at hplace
      omega
    · dsimp only
      rw [List.range_succ, List.map_append, List.sum_append, ← hlanes.corrected, List.map_singleton,
        List.sum_singleton, hdecode]
      rfl
    · dsimp only
      rw [List.range_succ, List.countP_append, ← hlanes.failed, List.countP_singleton, hdecode]
      rfl

/-- A block that is long enough has all its lanes decoded. -/
theorem decodeInterleaved_lanewise (hblock : depth * ccsdsBlock ≤ block.length) :
    Lanewise rs depth block depth (rs.decodeInterleaved block depth) := by
  have hrun (n : ℕ) (hn : n ≤ depth) : Lanewise rs depth block n
      ((List.range n).foldl (rs.decodeLane depth) (block, { corrected := 0, failed := 0 })) := by
    induction n with
    | zero =>
      constructor
      · rfl
      · intro lane hlane
        exact absurd hlane (Nat.not_lt_zero lane)
      · intro lane _ _
        rfl
      · intro i _
        rfl
      · rfl
      · rfl
    | succ n ih =>
      rw [List.range_succ, List.foldl_append]
      exact (ih (Nat.le_of_succ_le hn)).step hn hblock
  unfold decodeInterleaved
  rw [if_neg (not_lt.mpr hblock)]
  exact hrun depth le_rfl

/-! ## Sending -/

theorem encodeLane_append (rs : CcsdsReedSolomon) (data : List UInt8) (depth : ℕ)
    (out block : List UInt8) (lane : ℕ) :
    rs.encodeLane data depth out.length (out ++ block) lane =
      out ++ rs.encodeLane data depth 0 block lane := Lanes.write_append _ _ _

/-- The block is appended to what is there. -/
theorem encodeInterleaved_append (rs : CcsdsReedSolomon) (data : List UInt8) (depth : ℕ)
    (out : List UInt8) :
    rs.encodeInterleaved data depth out = out ++ rs.encodeInterleaved data depth [] := by
  unfold encodeInterleaved
  rw [List.nil_append, List.length_nil]
  generalize List.replicate (depth * ccsdsBlock) (0 : UInt8) = block
  induction List.range depth generalizing block with
  | nil => rfl
  | cons lane lanes ih =>
    rw [List.foldl_cons, List.foldl_cons, encodeLane_append, ih]

theorem encodeLane_new (data : List UInt8) (depth start : ℕ) (out : List UInt8) (lane : ℕ) :
    new.encodeLane data depth start out lane = Lanes.write depth lane start
      (codeword (Lanes.read 0 depth lane ccsdsData data)) out := rfl

/-- Each lane of the block is a codeword. -/
theorem encodeInterleaved_lanes (data : List UInt8) (depth : ℕ) :
    (new.encodeInterleaved data depth []).length = depth * ccsdsBlock ∧
      ∀ lane < depth, laneOf depth lane (new.encodeInterleaved data depth []) =
        codeword (Lanes.read 0 depth lane ccsdsData data) := by
  have hrun (n : ℕ) (hn : n ≤ depth) :
      let block := (List.range n).foldl (new.encodeLane data depth 0)
        (List.replicate (depth * ccsdsBlock) 0)
      block.length = depth * ccsdsBlock ∧ ∀ lane < n, laneOf depth lane block =
        codeword (Lanes.read 0 depth lane ccsdsData data) := by
    induction n with
    | zero =>
      constructor
      · exact List.length_replicate
      · intro lane hlane
        exact absurd hlane (Nat.not_lt_zero lane)
    | succ n ih =>
      obtain ⟨hlength, hlanes⟩ := ih (Nat.le_of_succ_le hn)
      rw [List.range_succ, List.foldl_append, List.foldl_cons, List.foldl_nil, encodeLane_new]
      constructor
      · exact (Lanes.length_write _ _).trans hlength
      · intro lane hlane
        rcases Nat.lt_succ_iff_lt_or_eq.mp hlane with hlow | rfl
        · rw [← hlanes lane hlow]
          exact Lanes.read_write_of_ne hn (hlow.trans hn) hlow.ne _ _ _
        · have hsent := length_codeword (@Lanes.length_read UInt8 0 depth lane ccsdsData data)
          apply Lanes.read_write_self hn hsent
          rw [hlength, Nat.mul_comm]
  exact hrun depth le_rfl

/-! ## Bursts -/

/-- A block hit by a burst of at most sixteen rows. -/
theorem decodeInterleaved_burst {depth start : ℕ} {data received : List UInt8}
    (hreceived : received.length = depth * ccsdsBlock)
    (hburst : ∀ i, received.getD i 0 ≠ (new.encodeInterleaved data depth []).getD i 0 →
      start ≤ i ∧ i < start + 16 * depth) :
    new.decodeInterleaved received depth = (new.encodeInterleaved data depth [],
      { corrected := (List.range (depth * ccsdsBlock)).countP
          fun i ↦ received.getD i 0 ≠ (new.encodeInterleaved data depth []).getD i 0
        failed := 0 }) := by
  obtain ⟨hlength, hlanes⟩ := encodeInterleaved_lanes data depth
  generalize new.encodeInterleaved data depth [] = sent at hburst hlength hlanes ⊢
  have hrun := @decodeInterleaved_lanewise new depth received hreceived.ge
  have hwrong (lane : ℕ) (hlane : lane < depth) : (List.range ccsdsBlock).countP (fun i ↦
      (laneOf depth lane received).getD i 0 ≠ (laneOf depth lane sent).getD i 0) =
        (List.range ccsdsBlock).countP fun i ↦
          received.getD (i * depth + lane) 0 ≠ sent.getD (i * depth + lane) 0 := by
    apply List.countP_congr
    intro i hi
    rw [laneOf, laneOf, Lanes.getD_read (List.mem_range.mp hi),
      Lanes.getD_read (List.mem_range.mp hi)]
  have hdecode (lane : ℕ) (hlane : lane < depth) : new.decode (laneOf depth lane received) =
      (some ((List.range ccsdsBlock).countP fun i ↦
        received.getD (i * depth + lane) 0 ≠ sent.getD (i * depth + lane) 0),
        laneOf depth lane sent) := by
    have hfew := Lanes.countP_run_le hlane start 16 ccsdsBlock
      (fun i ↦ received.getD i 0 ≠ sent.getD i 0) (fun i hi ↦ hburst i (of_decide_eq_true hi))
    rw [← hwrong lane hlane] at hfew ⊢
    rw [hlanes lane hlane] at hfew ⊢
    exact decode_codeword (Lanes.length_read _ _) (length_laneOf _ _ _) hfew
  have hblock : (new.decodeInterleaved received depth).1 = sent := by
    have hsame := hrun.length.trans hreceived
    rw [Nat.mul_comm] at hsame hlength
    apply @Lanes.ext_read UInt8 0 depth ccsdsBlock _ _ hsame hlength
    intro lane hlane
    have hdecoded := hrun.decoded lane hlane
    rw [repaired, hdecode lane hlane] at hdecoded
    exact hdecoded
  have hcorrected : (new.decodeInterleaved received depth).2.corrected =
      (List.range (depth * ccsdsBlock)).countP fun i ↦ received.getD i 0 ≠ sent.getD i 0 := by
    rw [hrun.corrected, Nat.mul_comm, Lanes.countP_lanes]
    congr 1
    apply List.map_congr_left
    intro lane hlane
    rw [hdecode lane (List.mem_range.mp hlane)]
    rfl
  have hfailed : (new.decodeInterleaved received depth).2.failed = 0 := by
    rw [hrun.failed, List.countP_eq_zero]
    intro lane hlane
    rw [hdecode lane (List.mem_range.mp hlane)]
    exact Bool.false_ne_true
  rcases hresult : new.decodeInterleaved received depth with ⟨result, corrected, failed⟩
  rw [hresult] at hblock hcorrected hfailed
  dsimp only at hblock hcorrected hfailed
  rw [hblock, hcorrected, hfailed]

/-- A burst of up to sixteen rows of a block is put right and counted; and in any block long enough
the lanes are decoded apart from each other: one that fails keeps its bytes, any other becomes a
codeword, and what lies behind them is left alone. -/
theorem interleaved_lanes :
    (∀ (depth start : ℕ) (data out received : List UInt8),
      let sent := (new.encodeInterleaved data depth out).drop out.length
      received.length = sent.length →
      (∀ i, received.getD i 0 ≠ sent.getD i 0 → start ≤ i ∧ i < start + 16 * depth) →
      new.decodeInterleaved received depth = (sent,
        { corrected := (List.range sent.length).countP fun i ↦ received.getD i 0 ≠ sent.getD i 0
          failed := 0 })) ∧
    ∀ (depth : ℕ) (block : List UInt8), depth * ccsdsBlock ≤ block.length →
      let result := new.decodeInterleaved block depth
      result.1.length = block.length ∧
        (∀ lane < depth,
          (new.decode (laneOf depth lane block)).1 = none ∧
              laneOf depth lane result.1 = laneOf depth lane block ∨
            (new.decode (laneOf depth lane block)).1.isSome ∧
              laneOf depth lane result.1 = (new.decode (laneOf depth lane block)).2 ∧
              IsCodeword (laneOf depth lane result.1)) ∧
        (∀ i, depth * ccsdsBlock ≤ i → result.1.getD i 0 = block.getD i 0) ∧
        result.2.failed = (List.range depth).countP
          fun lane ↦ (new.decode (laneOf depth lane block)).1.isNone := by
  constructor
  · intro depth start data out received sent hreceived hburst
    have hsent : sent = new.encodeInterleaved data depth [] := by
      change (new.encodeInterleaved data depth out).drop out.length = _
      rw [encodeInterleaved_append, List.drop_left]
    rw [hsent] at hreceived hburst ⊢
    have hlength := (encodeInterleaved_lanes data depth).1
    rw [hlength] at hreceived ⊢
    exact decodeInterleaved_burst hreceived hburst
  · intro depth block hblock result
    have hrun : Lanewise new depth block depth result := decodeInterleaved_lanewise hblock
    refine ⟨hrun.length, ?_, hrun.beyond, hrun.failed⟩
    intro lane hlane
    have hdecoded := hrun.decoded lane hlane
    rcases decode_cases (length_laneOf depth lane block) with hnone | ⟨n, word, hsome, hcodeword⟩
    · left
      rw [repaired, hnone] at hdecoded
      rw [hnone]
      exact ⟨rfl, hdecoded⟩
    · right
      rw [repaired, hsome] at hdecoded
      rw [hdecoded, hsome]
      exact ⟨rfl, rfl, hcodeword⟩

theorem interleaved_lanes_single : ∃ corrected,
    new.decodeInterleaved ((new.encodeInterleaved [7] 1 []).set 3 9) 1 =
      (new.encodeInterleaved [7] 1 [], { corrected := corrected, failed := 0 }) := by
  have hburst := interleaved_lanes.1 1 3 [7] [] ((new.encodeInterleaved [7] 1 []).set 3 9)
  dsimp only [List.length_nil, List.drop_zero] at hburst
  refine ⟨_, hburst List.length_set ?_⟩
  intro i hne
  by_cases hi : i = 3
  · rw [hi]
    exact ⟨le_rfl, by decide⟩
  · have hsame : ((new.encodeInterleaved [7] 1 []).set 3 9).getD i 0 =
        (new.encodeInterleaved [7] 1 []).getD i 0 := by
      rw [List.getD_eq_getElem?_getD, List.getElem?_set_ne (Ne.symm hi), List.getD_eq_getElem?_getD]
    exact absurd hsame hne

end CcsdsReedSolomon

end Sdrmm.Ccsds
