import Sdrmm.Channels.FtxLdpc
import Sdrmm.Lib.Bits

/-!
# What the LDPC decoder remembers

A call of `decode` overwrites everything it kept but one thing.  Before it fills its index, it empties
the entries of the syndromes that its own rows have, and leaves those of earlier calls as they are.  A
syndrome that none of its rows has then finds a row of another call.  `Meets` says that the search does
not look there; then earlier calls make no difference.
-/

namespace Sdrmm.Ftx

namespace Osd

variable {syndromes : List ℕ} {heads next : ℕ → Option ℕ}

/-! ## The index -/

theorem cleared_eq (syndromes : List ℕ) (heads : ℕ → Option ℕ) (target : ℕ) :
    syndromes.foldl (fun heads syndrome ↦ Function.update heads syndrome none) heads target =
      if target ∈ syndromes then none else heads target := by
  induction syndromes generalizing heads with
  | nil => rfl
  | cons syndrome syndromes ih =>
    rw [List.foldl_cons, ih]
    by_cases hsame : target = syndrome
    · subst hsame
      simp
    · by_cases hmem : target ∈ syndromes
      · simp [hmem]
      · simp [hmem, hsame]

/-- The rows from `start` on with a syndrome, as `find?` goes through them. -/
def firstWith (syndromes : List ℕ) (target start : ℕ) : Option ℕ :=
  (List.range' start (K - start)).find? fun row ↦ syndromes.getD row 0 = target

/-- The index when the rows from `start` on are in it. -/
structure Indexed (syndromes : List ℕ) (heads : ℕ → Option ℕ) (start : ℕ)
    (index : (ℕ → Option ℕ) × (ℕ → Option ℕ)) : Prop where
  found : ∀ target ∈ syndromes, index.1 target = firstWith syndromes target start
  kept : ∀ target ∉ syndromes, index.1 target = heads target
  next : ∀ row, start ≤ row → row < K →
    index.2 row = firstWith syndromes (syndromes.getD row 0) (row + 1)

theorem getD_mem (hlength : syndromes.length = K) {row : ℕ} (hrow : row < K) :
    syndromes.getD row 0 ∈ syndromes := by
  rw [List.getD_eq_getElem?_getD, List.getElem?_eq_getElem (by omega)]
  exact List.getElem_mem _

theorem firstWith_cons {start : ℕ} (hstart : start < K) (target : ℕ) :
    firstWith syndromes target start =
      if syndromes.getD start 0 = target then some start
      else firstWith syndromes target (start + 1) := by
  rw [firstWith, firstWith, show K - start = K - (start + 1) + 1 by omega, List.range'_succ,
    List.find?_cons]
  by_cases hsame : syndromes.getD start 0 = target
  · rw [decide_eq_true hsame, if_pos hsame]
  · rw [decide_eq_false hsame, if_neg hsame]

theorem Indexed.row (hlength : syndromes.length = K) {start : ℕ} (hstart : start < K)
    {index : (ℕ → Option ℕ) × (ℕ → Option ℕ)}
    (hindexed : Indexed syndromes heads (start + 1) index) :
    Indexed syndromes heads start (indexRow syndromes index start) where
  found := by
    intro target htarget
    rw [firstWith_cons hstart, indexRow]
    by_cases hsame : syndromes.getD start 0 = target
    · subst hsame
      rw [if_pos rfl]
      exact Function.update_self ..
    · rw [if_neg hsame]
      exact (Function.update_of_ne (Ne.symm hsame) ..).trans (hindexed.found target htarget)
  kept := by
    intro target htarget
    have hne : target ≠ syndromes.getD start 0 := by
      rintro rfl
      exact htarget (getD_mem hlength hstart)
    exact (Function.update_of_ne hne ..).trans (hindexed.kept target htarget)
  next := by
    intro row hle hrow
    rcases Nat.eq_or_lt_of_le hle with rfl | hlt
    · exact (Function.update_self ..).trans (hindexed.found _ (getD_mem hlength hstart))
    · exact (Function.update_of_ne hlt.ne' ..).trans (hindexed.next row hlt hrow)

theorem indexed_foldr (hlength : syndromes.length = K) (count : ℕ) {start : ℕ}
    (hstart : start + count = K) :
    Indexed syndromes heads start ((List.range' start count).foldr
      (fun row index ↦ indexRow syndromes index row)
      (syndromes.foldl (fun heads syndrome ↦ Function.update heads syndrome none) heads, next)) := by
  induction count generalizing start with
  | zero =>
    obtain rfl : start = K := hstart
    refine ⟨?_, ?_, fun row hle hlt ↦ absurd hlt (not_lt.mpr hle)⟩
    · intro target htarget
      refine (cleared_eq syndromes heads target).trans ?_
      rw [if_pos htarget, firstWith, Nat.sub_self]
      rfl
    · intro target htarget
      exact (cleared_eq syndromes heads target).trans (if_neg htarget)
  | succ count ih =>
    rw [List.range'_succ, List.foldr_cons]
    exact (ih (by omega)).row hlength (by omega)

theorem indexSyndromes_indexed (o : Osd) (hlength : o.syndromes.length = K) :
    Indexed o.syndromes o.heads 0 (o.indexSyndromes.heads, o.indexSyndromes.next) := by
  simp only [indexSyndromes, List.foldl_reverse, List.range_eq_range']
  exact indexed_foldr hlength K (Nat.zero_add K)

/-- Following the rows of a syndrome finds all of them. -/
theorem chain_eq_filter {target : ℕ}
    (hnext : ∀ row < K, next row = firstWith syndromes (syndromes.getD row 0) (row + 1))
    (count : ℕ) {fuel start : ℕ} (hstart : start + count = K) (hfuel : count ≤ fuel) :
    chain next fuel (firstWith syndromes target start) =
      (List.range' start count).filter fun row ↦ syndromes.getD row 0 = target := by
  induction count generalizing start fuel with
  | zero =>
    obtain rfl : start = K := hstart
    rw [firstWith, Nat.sub_self]
    cases fuel <;> rfl
  | succ count ih =>
    obtain ⟨fuel, rfl⟩ : ∃ left, fuel = left + 1 := ⟨fuel - 1, by omega⟩
    rw [firstWith_cons (by omega), List.range'_succ]
    by_cases hsame : syndromes.getD start 0 = target
    · rw [if_pos hsame, chain, hnext start (by omega), hsame, ih (by omega) (by omega),
        List.filter_cons_of_pos (by simpa using hsame)]
    · rw [if_neg hsame, ih (by omega) (by omega), List.filter_cons_of_neg (by simpa using hsame)]

/-- The rows that the index finds for a syndrome are those that have it, if no other call has left
one there. -/
theorem rowsWith_indexSyndromes (o : Osd) (hlength : o.syndromes.length = K) {target : ℕ}
    (htarget : target ∈ o.syndromes ∨ o.heads target = none) :
    o.indexSyndromes.rowsWith target =
      (List.range K).filter fun row ↦ o.syndromes.getD row 0 = target := by
  have hindexed := indexSyndromes_indexed o hlength
  by_cases hmem : target ∈ o.syndromes
  · have hfound : o.indexSyndromes.heads target = firstWith o.syndromes target 0 :=
      hindexed.found target hmem
    rw [rowsWith, hfound, List.range_eq_range']
    exact chain_eq_filter (fun row hrow ↦ hindexed.next row (Nat.zero_le _) hrow) K
      (Nat.zero_add K) le_rfl
  · have hnone : o.indexSyndromes.heads target = none :=
      (hindexed.kept target hmem).trans (htarget.resolve_left hmem)
    have hempty : (List.range K).filter (fun row ↦ o.syndromes.getD row 0 = target) = [] := by
      rw [List.filter_eq_nil_iff]
      intro row hrow hsame
      rw [decide_eq_true_iff] at hsame
      exact hmem (hsame ▸ getD_mem hlength (List.mem_range.mp hrow))
    rw [rowsWith, hnone, hempty]
    rfl

/-! ## The search -/

/-- The syndromes that the search looks up. -/
def targets (o : Osd) (syndrome maxOrder : ℕ) : List ℕ :=
  syndrome ::
    if 2 ≤ maxOrder then
      (List.range K).flatMap fun first ↦
        let target := syndrome ^^^ o.syndromeOf first
        target ::
          if maxOrder < 3 then []
          else
            (List.range' (first + 1) (K - (first + 1))).map fun second ↦
              target ^^^ o.syndromeOf second
    else []

/-- The search depends on the index only where it looks. -/
theorem candidates_congr {o o' : Osd} (hrows : o'.rows = o.rows)
    (hsyndromes : o'.syndromes = o.syndromes) {error syndrome maxOrder : ℕ}
    (hindex : ∀ target ∈ o.targets syndrome maxOrder, o'.rowsWith target = o.rowsWith target) :
    o'.candidates error syndrome maxOrder = o.candidates error syndrome maxOrder := by
  have hrow : o'.row = o.row := by
    funext i
    rw [row, row, hrows]
  have hsyndrome : o'.syndromeOf = o.syndromeOf := by
    funext i
    rw [syndromeOf, syndromeOf, hsyndromes]
  rw [candidates, candidates, hrow, hsyndrome, hindex syndrome (List.mem_cons_self ..)]
  congr 1
  by_cases hpairs : 2 ≤ maxOrder
  · rw [targets, if_pos hpairs] at hindex
    rw [if_pos hpairs, if_pos hpairs]
    apply List.flatMap_congr
    intro first hfirst
    have hpair : ∀ target ∈ (syndrome ^^^ o.syndromeOf first) :: (if maxOrder < 3 then [] else
        (List.range' (first + 1) (K - (first + 1))).map fun second ↦
          syndrome ^^^ o.syndromeOf first ^^^ o.syndromeOf second),
        o'.rowsWith target = o.rowsWith target := by
      intro target htarget
      exact hindex target (List.mem_cons_of_mem _ (List.mem_flatMap.mpr ⟨first, hfirst, htarget⟩))
    dsimp only
    rw [hpair _ (List.mem_cons_self ..)]
    congr 1
    by_cases hsmall : maxOrder < 3
    · rw [if_pos hsmall, if_pos hsmall]
    · rw [if_neg hsmall] at hpair
      rw [if_neg hsmall, if_neg hsmall]
      apply List.flatMap_congr
      intro second hsecond
      rw [hpair _ (List.mem_cons_of_mem _ (List.mem_map.mpr ⟨second, hsecond, rfl⟩))]
  · rw [if_neg hpairs, if_neg hpairs]

theorem search_congr {o o' : Osd} (hreliability : o'.reliability = o.reliability)
    {error syndrome maxOrder : ℕ}
    (hcandidates : o'.candidates error syndrome maxOrder = o.candidates error syndrome maxOrder) :
    o'.search error syndrome maxOrder = o.search error syndrome maxOrder := by
  have hconsider : o'.consider = o.consider := by
    funext best candidate
    rw [consider, consider, distance, distance, hreliability]
  rw [search, search, hcandidates, hconsider]

/-- Two decoders with the same rows search alike, if neither finds what another call has left. -/
theorem search_indexSyndromes {o o' : Osd} (hreliability : o'.reliability = o.reliability)
    (hrows : o'.rows = o.rows) (hsyndromes : o'.syndromes = o.syndromes)
    (hlength : o.syndromes.length = K) {error syndrome maxOrder : ℕ}
    (hmine : ∀ target ∈ o.targets syndrome maxOrder,
      target ∈ o.syndromes ∨ o.heads target = none)
    (hother : ∀ target ∈ o.targets syndrome maxOrder,
      target ∈ o.syndromes ∨ o'.heads target = none) :
    o'.indexSyndromes.search error syndrome maxOrder =
      o.indexSyndromes.search error syndrome maxOrder := by
  have hsame : o'.indexSyndromes.reliability = o.indexSyndromes.reliability := hreliability
  have hsame' : o'.indexSyndromes.rows = o.indexSyndromes.rows := hrows
  apply search_congr hsame
  apply candidates_congr hsame' hsyndromes
  intro target htarget
  rw [rowsWith_indexSyndromes o hlength (hmine target htarget),
    rowsWith_indexSyndromes o' (hsyndromes ▸ hlength) (hsyndromes ▸ hother target htarget),
    hsyndromes]

theorem length_clear (rows : List (ℕ × ℕ)) (pivot bit : ℕ) :
    (clear rows pivot bit).length = rows.length := by
  rw [clear, List.length_map, List.length_zipIdx]

theorem length_eliminate (rows : List (ℕ × ℕ)) :
    (eliminate rows).1.length = rows.length := by
  have hstep : ∀ (state : List (ℕ × ℕ) × List ℕ) position,
      (eliminateStep state position).1.length = state.1.length := by
    intro state position
    rw [eliminateStep]
    split_ifs
    · rfl
    · split
      · rfl
      · rw [length_clear, swap, List.length_set, List.length_set]
  have hfold : ∀ (positions : List ℕ) (state : List (ℕ × ℕ) × List ℕ),
      (positions.foldl eliminateStep state).1.length = state.1.length := by
    intro positions
    induction positions with
    | nil => exact fun _ ↦ rfl
    | cons position positions ih => exact fun state ↦ (ih _).trans (hstep state position)
  unfold eliminate
  generalize List.range N = positions
  exact hfold positions (rows, [])

theorem length_permutedGenerator (order : List ℕ) :
    (permutedGenerator Code.build order).length = K := by
  have hcrc : Code.build.crcSyndrome.length = K := by
    rw [Code.build, List.length_map, List.length_range]
  rw [permutedGenerator, List.length_zip, List.length_map, List.length_range, hcrc, min_self]

section Decode

variable (sortUnstable : (ℕ → ℕ → Bool) → List ℕ → List ℕ)

/-- The rows of a call and the positions of their pivots. -/
def reducedOf (llr : ℕ → ℚ) : List (ℕ × ℕ) × Option (List ℕ) :=
  eliminate (permutedGenerator Code.build (orderOf sortUnstable llr))

theorem length_reducedOf (llr : ℕ → ℚ) : (reducedOf sortUnstable llr).1.length = K := by
  rw [reducedOf, length_eliminate, length_permutedGenerator]

/-- The syndromes that the search of a call looks up. -/
def lookedUp (llr : ℕ → ℚ) (maxOrder : ℕ) (basis : List ℕ) : List ℕ :=
  let rows := (reducedOf sortUnstable llr).1
  (new.load llr (orderOf sortUnstable llr) rows).targets
    (reencode rows (hardOf llr (orderOf sortUnstable llr)) basis).2 maxOrder

/-- What the search of a call looks up is among its own rows or was left empty by earlier calls. -/
def Meets (o : Osd) (llr : ℕ → ℚ) (maxOrder : ℕ) : Prop :=
  ∀ basis ∈ (reducedOf sortUnstable llr).2,
    ∀ target ∈ lookedUp sortUnstable llr maxOrder basis,
      target ∈ (reducedOf sortUnstable llr).1.map Prod.snd ∨ o.heads target = none

theorem load_syndromes (o : Osd) (llr : ℕ → ℚ) (order : List ℕ) (rows : List (ℕ × ℕ)) :
    (o.load llr order rows).syndromes = rows.map Prod.snd := rfl

/-- The search after the same rows were loaded into two decoders, one of them new. -/
theorem search_load {o : Osd} {llr : ℕ → ℚ} {order : List ℕ} {rows : List (ℕ × ℕ)}
    (hlength : rows.length = K) {syndrome maxOrder : ℕ}
    (hlooked : ∀ target ∈ (new.load llr order rows).targets syndrome maxOrder,
      target ∈ rows.map Prod.snd ∨ o.heads target = none) (error : ℕ) :
    (o.load llr order rows).indexSyndromes.search error syndrome maxOrder =
      (new.load llr order rows).indexSyndromes.search error syndrome maxOrder := by
  have hsyndromes : (new.load llr order rows).syndromes.length = K := by
    rw [load_syndromes, List.length_map, hlength]
  have hreliability : (o.load llr order rows).reliability = (new.load llr order rows).reliability := by
    rw [load, load]
  have hrows : (o.load llr order rows).rows = (new.load llr order rows).rows := by
    rw [load, load]
  have hsame : (o.load llr order rows).syndromes = (new.load llr order rows).syndromes := by
    rw [load_syndromes, load_syndromes]
  exact search_indexSyndromes hreliability hrows hsame hsyndromes (fun _ _ ↦ Or.inr rfl) hlooked

theorem decode_eq_new {o : Osd} {llr : ℕ → ℚ} {maxOrder : ℕ}
    (hmeets : Meets sortUnstable o llr maxOrder) :
    (o.decode sortUnstable Code.build llr maxOrder).2 =
      (new.decode sortUnstable Code.build llr maxOrder).2 := by
  have hlength := length_reducedOf sortUnstable llr
  unfold Meets lookedUp at hmeets
  change (o.finish llr (orderOf sortUnstable llr) (reducedOf sortUnstable llr) maxOrder).2 =
    (new.finish llr (orderOf sortUnstable llr) (reducedOf sortUnstable llr) maxOrder).2
  -- The rows are the same, whatever the elimination makes of them.
  generalize reducedOf sortUnstable llr = reduced at *
  generalize orderOf sortUnstable llr = order at *
  unfold finish
  cases hbasis : reduced.2 with
  | none => rfl
  | some basis =>
    have hsearch := search_load hlength (hmeets basis hbasis)
    simp only [hsearch]

/-- A call that is made again meets its conditions. -/
theorem meets_decode (llr : ℕ → ℚ) (maxOrder maxOrder' : ℕ) :
    Meets sortUnstable (new.decode sortUnstable Code.build llr maxOrder).1 llr maxOrder' := by
  intro basis hbasis target _
  by_cases hmem : target ∈ (reducedOf sortUnstable llr).1.map Prod.snd
  · exact Or.inl hmem
  · right
    have hlength : (new.load llr (orderOf sortUnstable llr)
        (reducedOf sortUnstable llr).1).syndromes.length = K := by
      rw [load_syndromes, List.length_map, length_reducedOf]
    have hnot : target ∉ (new.load llr (orderOf sortUnstable llr)
        (reducedOf sortUnstable llr).1).syndromes := by
      rw [load_syndromes]
      exact hmem
    have hkept := (indexSyndromes_indexed _ hlength).kept target hnot
    have hdecode : (new.decode sortUnstable Code.build llr maxOrder).1 =
        (new.load llr (orderOf sortUnstable llr) (reducedOf sortUnstable llr).1).indexSyndromes := by
      change (new.finish llr (orderOf sortUnstable llr) (reducedOf sortUnstable llr) maxOrder).1 = _
      unfold finish
      rw [hbasis]
    rw [hdecode]
    exact hkept

end Decode

/-! ## Elimination of the most reliable bits in order -/

theorem testBit_permuted (f : ℕ → Bool) (order : List ℕ) (start bits p : ℕ) :
    ((order.zipIdx start).foldl (fun bits (natural, position) ↦
      if f natural then bits ||| 1 <<< position else bits) bits).testBit p =
        (bits.testBit p || (decide (start ≤ p) && (order[p - start]?).any f)) := by
  induction order generalizing start bits with
  | nil => simp
  | cons natural order ih =>
    rw [List.zipIdx_cons, List.foldl_cons, ih]
    have hfirst : (if f natural then bits ||| 1 <<< start else bits).testBit p =
        (bits.testBit p || (decide (p = start) && f natural)) := by
      have hbit := Bits.testBit_shiftLeft_toNat true start p
      rw [Bool.toNat_true, Bool.and_true] at hbit
      cases f natural with
      | false => simp
      | true => rw [if_pos rfl, Nat.testBit_or, hbit, Bool.and_true]
    rw [hfirst, Bool.or_assoc]
    congr 1
    rcases lt_trichotomy p start with hlt | rfl | hgt
    · simp [hlt.ne, Nat.not_le.mpr hlt, Nat.not_le.mpr (Nat.lt_succ_of_lt hlt)]
    · simp
    · have hindex : p - start = p - (start + 1) + 1 := by omega
      rw [hindex, List.getElem?_cons_succ]
      simp [hgt.ne', hgt.le, Nat.succ_le_of_lt hgt]

/-- Rows that are reduced already as far as their first positions go. -/
structure Reduced (rows : List (ℕ × ℕ)) (count : ℕ) : Prop where
  length : rows.length = K
  bit : ∀ row < K, ∀ p < count, (rows.getD row (0, 0)).1.testBit p = decide (p = row)

/-- The message bits in order are a reduced start. -/
theorem reduced_permutedGenerator {count : ℕ} (hcount : count ≤ K) (rest : List ℕ) :
    Reduced (permutedGenerator Code.build (List.range count ++ rest)) count where
  length := length_permutedGenerator _
  bit := by
    intro row hrow p hp
    have hcrc : row < Code.build.crcSyndrome.length := by
      rw [Code.build, List.length_map, List.length_range]
      exact hrow
    have hnatural : (List.range count ++ rest)[p - 0]? = some p := by
      rw [Nat.sub_zero, List.getElem?_append_left (by rw [List.length_range]; exact hp),
        List.getElem?_range hp]
    have hitem : (permutedGenerator Code.build (List.range count ++ rest))[row]? =
        some (rowBits Code.build (List.range count ++ rest) row, Code.build.crcSyndrome[row]) := by
      rw [permutedGenerator, List.getElem?_zip_eq_some]
      refine ⟨?_, List.getElem?_eq_getElem hcrc⟩
      rw [List.getElem?_map, List.getElem?_range hrow, Option.map_some]
    rw [List.getD_eq_getElem?_getD, hitem, Option.getD_some, rowBits, testBit_permuted, hnatural,
      Option.any_some, contains, if_pos (hp.trans_le hcount)]
    simp

theorem swap_self {rows : List (ℕ × ℕ)} {i : ℕ} (hi : i < rows.length) : swap rows i i = rows := by
  rw [swap, List.set_set, List.getD_eq_getElem?_getD, List.getElem?_eq_getElem hi, Option.getD_some,
    List.set_getElem_self]

theorem Reduced.clear {rows : List (ℕ × ℕ)} {count p : ℕ} (hreduced : Reduced rows count)
    (hp : p < count) : Ftx.clear rows p p = rows := by
  apply List.ext_getElem?
  intro row
  rw [Ftx.clear, List.getElem?_map, List.getElem?_zipIdx]
  cases hitem : rows[row]? with
  | none => rfl
  | some item =>
    have hrow : row < K := by
      rw [← hreduced.length]
      exact (List.getElem?_eq_some_iff.mp hitem).1
    have hbit := hreduced.bit row hrow p hp
    rw [List.getD_eq_getElem?_getD, hitem, Option.getD_some] at hbit
    simp only [Option.map_some, Nat.zero_add, hbit]
    rw [if_neg (by simp [eq_comm])]

theorem Reduced.findRow {rows : List (ℕ × ℕ)} {count p : ℕ} (hreduced : Reduced rows count)
    (hp : p < count) (hK : p < K) : Ftx.findRow rows p p = some p := by
  have hbit := hreduced.bit p hK p hp
  rw [decide_eq_true rfl] at hbit
  rw [Ftx.findRow, hreduced.length, show K - p = K - (p + 1) + 1 by omega, List.range'_succ,
    List.find?_cons, hbit]

theorem Reduced.foldl {rows : List (ℕ × ℕ)} {count : ℕ} (hreduced : Reduced rows count)
    (hcount : count ≤ K) {p : ℕ} (hp : p ≤ count) :
    (List.range p).foldl eliminateStep (rows, []) = (rows, List.range p) := by
  induction p with
  | zero => rfl
  | succ p ih =>
    have hK : p < K := hp.trans hcount
    have hlength : p < rows.length := hreduced.length ▸ hK
    rw [List.range_succ, List.foldl_append, ih (Nat.le_of_succ_le hp), List.foldl_cons, List.foldl_nil,
      eliminateStep]
    simp only [List.length_range]
    rw [if_neg hK.ne, hreduced.findRow hp hK]
    simp only
    rw [swap_self hlength, hreduced.clear hp]

/-- The elimination has only the other positions left to do. -/
theorem Reduced.eliminate {rows : List (ℕ × ℕ)} {count : ℕ} (hreduced : Reduced rows count)
    (hcount : count ≤ K) :
    Osd.eliminate rows =
      let state := (List.range' count (N - count)).foldl eliminateStep (rows, List.range count)
      (state.1, if state.2.length = K then some state.2 else none) := by
  have hpositions : List.range N = List.range count ++ List.range' count (N - count) := by
    have hN : count ≤ N := hcount.trans (by decide)
    have hjoin : List.range' 0 count ++ List.range' (0 + count) (N - count) =
        List.range' 0 (count + (N - count)) := List.range'_append_1
    rw [Nat.zero_add, Nat.add_sub_cancel' hN] at hjoin
    rw [List.range_eq_range', List.range_eq_range', hjoin]
  rw [Osd.eliminate, hpositions, List.foldl_append, hreduced.foldl hcount le_rfl]

/-- The elimination with its first positions done. -/
def reducedFrom (count : ℕ) (rows : List (ℕ × ℕ)) : List (ℕ × ℕ) × Option (List ℕ) :=
  let state := (List.range' count (N - count)).foldl eliminateStep (rows, List.range count)
  (state.1, if state.2.length = K then some state.2 else none)

theorem decode_of_order {sortUnstable : (ℕ → ℕ → Bool) → List ℕ → List ℕ} {llr : ℕ → ℚ} {count : ℕ}
    {rest : List ℕ} (horder : orderOf sortUnstable llr = List.range count ++ rest)
    (hcount : count ≤ K) (o : Osd) (maxOrder : ℕ) :
    o.decode sortUnstable Code.build llr maxOrder = o.finish llr (List.range count ++ rest)
      (reducedFrom count (permutedGenerator Code.build (List.range count ++ rest))) maxOrder := by
  rw [decode, horder, (reduced_permutedGenerator hcount rest).eliminate hcount]
  rfl

end Osd

namespace Decoder

variable (sortUnstable : (ℕ → ℕ → Bool) → List ℕ → List ℕ)

/-- If a call gets to the ordered statistics, its search looks up nothing that only earlier calls have
left. -/
def Meets (d : Decoder) (call : Call) : Prop :=
  (beliefPropagation Code.build d.belief call.llr call.iterations).2.bind
      (verdict call.llr false) = none → call.osdOrder ≠ 0 →
    Osd.Meets sortUnstable d.osd call.llr call.osdOrder

/-- After any earlier calls, a call that meets its conditions returns what it returns on a new decoder. -/
theorem decode_run (calls : List Call) (call : Call)
    (hmeets : Meets sortUnstable (new.run sortUnstable Code.build calls) call) :
    ((new.run sortUnstable Code.build calls).decode sortUnstable Code.build call.llr call.iterations
        call.osdOrder).2 =
      (new.decode sortUnstable Code.build call.llr call.iterations call.osdOrder).2 := by
  generalize new.run sortUnstable Code.build calls = d at *
  unfold decode
  dsimp only
  unfold Meets at hmeets
  have hbelief : (beliefPropagation Code.build new.belief call.llr call.iterations).2 =
      (beliefPropagation Code.build d.belief call.llr call.iterations).2 := rfl
  rw [hbelief]
  cases hverdict : (beliefPropagation Code.build d.belief call.llr call.iterations).2.bind
      (verdict call.llr false) with
  | some decoded => rfl
  | none =>
    by_cases hzero : call.osdOrder = 0
    · simp only [hzero, if_true]
    · have hosd := Osd.decode_eq_new sortUnstable (hmeets hverdict hzero)
      have hnew : new.osd = Osd.new := rfl
      simp only [hzero, if_false, hosd, hnew]

/-- Without iterations a call goes straight to the ordered statistics. -/
theorem decode_noIterations (d : Decoder) (llr : ℕ → ℚ) {osdOrder : ℕ} (horder : osdOrder ≠ 0) :
    (d.decode sortUnstable Code.build llr 0 osdOrder).1.osd =
        (d.osd.decode sortUnstable Code.build llr osdOrder).1 ∧
      (d.decode sortUnstable Code.build llr 0 osdOrder).2 =
        (d.osd.decode sortUnstable Code.build llr osdOrder).2.bind (verdict llr true) := by
  unfold decode
  simp only [beliefPropagation, iterate, Option.bind_none, horder, if_false, and_self]

theorem osd_run_singleton (call : Call) (hiterations : call.iterations = 0)
    (horder : call.osdOrder ≠ 0) :
    (new.run sortUnstable Code.build [call]).osd =
      (Osd.new.decode sortUnstable Code.build call.llr call.osdOrder).1 := by
  rw [run, List.foldl_cons, List.foldl_nil, hiterations]
  exact (decode_noIterations sortUnstable new call.llr horder).1

/-! ## Two calls -/

/-- A sort that keeps the order of bits that are equally reliable. -/
def insertion (le : ℕ → ℕ → Bool) (bits : List ℕ) : List ℕ :=
  bits.insertionSort fun a b ↦ le a b = true

/-- The bits of the codeword after the 80 most reliable ones, which are the first. -/
def lateBits : List ℕ := [92, 93, 94, 97, 98, 99, 100, 102, 103, 106, 107]

/-- A codeword of zeros in which some parity bits are more reliable than some message bits.  One of its
reduced rows is a codeword with a checksum that fits. -/
def firstCall : Call where
  llr bit := -((if bit < 80 then 400 - bit else if bit ∈ lateBits then 300 - bit else 200 - bit : ℕ) : ℚ)
  iterations := 0
  osdOrder := 1

/-- The parity bits of the message bit 3. -/
def parityBits : List ℕ :=
  [92, 93, 94, 100, 101, 102, 103, 104, 108, 111, 112, 120, 122, 123, 124, 127, 128, 129, 130, 133,
   134, 136, 138, 142, 144, 145, 146, 147, 149, 150, 151, 152, 158, 160, 161, 162, 165, 166, 167, 168,
   171]

/-- The codeword of zeros with the parity bits of the message bit 3 set. -/
def secondCall : Call where
  llr bit := if bit ∈ parityBits then (200 - bit : ℕ) else -((200 - bit : ℕ) : ℚ)
  iterations := 0
  osdOrder := 1

theorem decode_run_again :
    ((new.run insertion Code.build [firstCall]).decode insertion Code.build firstCall.llr 0 1).2 =
      (new.decode insertion Code.build firstCall.llr 0 1).2 := by
  apply decode_run insertion [firstCall] firstCall
  intro _ horder
  rw [osd_run_singleton insertion firstCall rfl horder]
  exact Osd.meets_decode insertion firstCall.llr _ _

set_option maxRecDepth 100000 in
theorem orderOf_firstCall : Osd.orderOf insertion firstCall.llr =
    List.range 80 ++ (lateBits ++ (List.range' 80 94).filter (· ∉ lateBits)) := by
  decide

set_option maxRecDepth 100000 in
theorem orderOf_secondCall : Osd.orderOf insertion secondCall.llr =
    List.range 91 ++ List.range' 91 83 := by
  decide

/-- The first call leaves a row under the syndrome zero, where the second one has none of its own. -/
theorem payloads_differ :
    (((Osd.new.finish firstCall.llr
        (List.range 80 ++ (lateBits ++ (List.range' 80 94).filter (· ∉ lateBits)))
        (Osd.reducedFrom 80 (Osd.permutedGenerator Code.build
          (List.range 80 ++ (lateBits ++ (List.range' 80 94).filter (· ∉ lateBits))))) 1).1.finish
        secondCall.llr (List.range 91 ++ List.range' 91 83)
        (Osd.reducedFrom 91 (Osd.permutedGenerator Code.build
          (List.range 91 ++ List.range' 91 83))) 1).2.bind payloadOf = none) ∧
    ((Osd.new.finish secondCall.llr (List.range 91 ++ List.range' 91 83)
        (Osd.reducedFrom 91 (Osd.permutedGenerator Code.build
          (List.range 91 ++ List.range' 91 83))) 1).2.bind payloadOf = some 0) := by
  decide +kernel

theorem map_payload_verdict (llr : ℕ → ℚ) (osd : Bool) (codeword : Option (List Bool)) :
    (codeword.bind (verdict llr osd)).map Decoded.payload = codeword.bind payloadOf := by
  cases codeword with
  | none => rfl
  | some codeword =>
    rw [Option.bind_some, Option.bind_some, verdict, Option.map_map]
    cases payloadOf codeword <;> rfl

/-- The second call finds the message on a new decoder and not after the first one. -/
theorem decode_run_differs :
    (((new.run insertion Code.build [firstCall]).decode insertion Code.build secondCall.llr 0 1).2.map
        Decoded.payload = none) ∧
      ((new.decode insertion Code.build secondCall.llr 0 1).2.map Decoded.payload = some 0) := by
  have hfirst := Osd.decode_of_order orderOf_firstCall (by decide)
  have hsecond := Osd.decode_of_order orderOf_secondCall (by decide)
  have hrun := osd_run_singleton insertion firstCall rfl one_ne_zero
  have hnew : new.osd = Osd.new := rfl
  rw [(decode_noIterations insertion _ secondCall.llr one_ne_zero).2,
    (decode_noIterations insertion _ secondCall.llr one_ne_zero).2, map_payload_verdict,
    map_payload_verdict, hrun, hnew, hsecond, hsecond]
  change ((Osd.new.decode insertion Code.build firstCall.llr 1).1.finish _ _ _ _).2.bind payloadOf =
    none ∧ _
  rw [hfirst]
  exact payloads_differ

end Decoder

end Sdrmm.Ftx
