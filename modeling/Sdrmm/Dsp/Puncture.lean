import Mathlib.Data.Nat.Count
import Sdrmm.Dsp.Conv7

/-!
# Puncturing

`puncture`, `depuncture` and `Depuncturer` of `dsp/src/fec/conv7.rs`, with the values pushed to `out`
as results.  All three are told apart by how they walk the pattern, so each is described by places in
the unpunctured stream: a kept place takes the next received value, a dropped one is an erasure, and
what differs is only where the output ends.
-/

namespace Sdrmm.Conv7

def erasure : Soft := 0

def confident : Soft := 64

def soft (bit : Bool) : Soft := if bit then confident else -confident

/-- `pattern[index % pattern.len()]`. -/
def kept (pattern : List Bool) (index : ℕ) : Bool := pattern.getD (index % pattern.length) false

def puncture (coded pattern : List Bool) : List Bool :=
  coded.zipIdx.filterMap fun (bit, index) ↦ if kept pattern index then some bit else none

/-- One pass over the pattern, with what is left of the received values, or nothing once they have run
out at a kept place. -/
def depunctureCycle : List Bool → List Soft → List Soft × Option (List Soft)
  | [], source => ([], some source)
  | true :: _, [] => ([], none)
  | true :: pattern, value :: source =>
    let (out, rest) := depunctureCycle pattern source
    (value :: out, rest)
  | false :: pattern, source =>
    let (out, rest) := depunctureCycle pattern source
    (erasure :: out, rest)

def depunctureCycles (pattern : List Bool) : ℕ → List Soft → List Soft
  | 0, _ => []
  | cycles + 1, source =>
    match depunctureCycle pattern source with
    | (out, some rest) => out ++ depunctureCycles pattern cycles rest
    | (out, none) => out

def depuncture (received : List Soft) (pattern : List Bool) : List Soft :=
  let kept := pattern.count true
  if kept = 0 then []
  else depunctureCycles pattern ((received.length + kept - 1) / kept) received

structure Depuncturer where
  pattern : List Bool
  place : ℕ

namespace Depuncturer

def new (pattern : List Bool) : Depuncturer where
  pattern := pattern
  place := 0

/-- The erasures up to the next kept place; one pass over the pattern finds it. -/
def skip (pattern : List Bool) : ℕ → ℕ → List Soft × ℕ
  | 0, place => ([], place)
  | steps + 1, place =>
    if pattern.getD place false then ([], place)
    else
      let (out, place) := skip pattern steps ((place + 1) % pattern.length)
      (erasure :: out, place)

def processValues (d : Depuncturer) : List Soft → List Soft × Depuncturer
  | [] => ([], d)
  | value :: received =>
    let (erasures, place) := skip d.pattern d.pattern.length d.place
    let (out, next) :=
      processValues { d with place := (place + 1) % d.pattern.length } received
    (erasures ++ value :: out, next)

def process (d : Depuncturer) (received : List Soft) : List Soft × Depuncturer :=
  if d.pattern.any id then d.processValues received else ([], d)

/-- The calls for a stream that comes in chunks. -/
def processChunks (d : Depuncturer) : List (List Soft) → List Soft × Depuncturer
  | [] => ([], d)
  | chunk :: chunks =>
    let (out, next) := d.process chunk
    let (later, last) := next.processChunks chunks
    (out ++ later, last)

end Depuncturer

/-! ## Places in the unpunctured stream -/

variable {pattern : List Bool}

/-- How many kept places lie below. -/
def rank (pattern : List Bool) (place : ℕ) : ℕ := Nat.count (fun i ↦ kept pattern i = true) place

def fill (pattern : List Bool) (received : List Soft) (place : ℕ) : Soft :=
  if kept pattern place then received.getD (rank pattern place) erasure else erasure

/-- The unpunctured stream from one place to another. -/
def filled (pattern : List Bool) (received : List Soft) (first last : ℕ) : List Soft :=
  (List.range' first (last - first)).map (fill pattern received)

theorem rank_succ (place : ℕ) :
    rank pattern (place + 1) = rank pattern place + (kept pattern place).toNat := by
  rw [rank, Nat.count_succ, rank]
  cases kept pattern place <;> rfl

theorem rank_mono (pattern : List Bool) {first last : ℕ} (hle : first ≤ last) :
    rank pattern first ≤ rank pattern last :=
  Nat.count_monotone _ hle

/-- A kept place below another place counts. -/
theorem rank_lt {first last : ℕ} (hkept : kept pattern first = true) (hlt : first < last) :
    rank pattern first < rank pattern last :=
  Nat.count_strict_mono hkept hlt

theorem rank_cycles (cycles : ℕ) :
    rank pattern (cycles * pattern.length) = cycles * pattern.count true := by
  have hcycle : ∀ count ≤ pattern.length, ∀ base,
      Nat.count (fun i ↦ kept pattern (base * pattern.length + i) = true) count =
        (pattern.take count).count true := by
    intro count hcount base
    induction count with
    | zero => rw [Nat.count_zero, List.take_zero, List.count_nil]
    | succ count ih =>
      have hlt : count < pattern.length := hcount
      have hplace : kept pattern (base * pattern.length + count) = pattern[count] := by
        rw [kept, Nat.mul_add_mod_self_right, Nat.mod_eq_of_lt hlt, List.getD_eq_getElem _ _ hlt]
      rw [Nat.count_succ, ih hlt.le, List.take_succ_eq_append_getElem hlt, List.count_append, hplace]
      cases pattern[count] <;> rfl
  induction cycles with
  | zero => rw [Nat.zero_mul, Nat.zero_mul, rank, Nat.count_zero]
  | succ cycles ih =>
    have hlast := hcycle pattern.length le_rfl cycles
    rw [List.take_length] at hlast
    rw [Nat.succ_mul, Nat.succ_mul, ← ih, rank, Nat.count_add, hlast]
    rfl

theorem filled_self (received : List Soft) (place : ℕ) : filled pattern received place place = [] := by
  rw [filled, Nat.sub_self]
  rfl

theorem filled_cons (received : List Soft) {first last : ℕ} (hlt : first < last) :
    filled pattern received first last =
      fill pattern received first :: filled pattern received (first + 1) last := by
  obtain ⟨count, rfl⟩ := Nat.exists_eq_add_of_lt hlt
  rw [filled, filled, show first + count + 1 - first = count + 1 by omega,
    show first + count + 1 - (first + 1) = count by omega, List.range'_succ]
  rfl

theorem filled_append (received : List Soft) {first middle last : ℕ} (hfirst : first ≤ middle)
    (hlast : middle ≤ last) : filled pattern received first middle ++
      filled pattern received middle last = filled pattern received first last := by
  obtain ⟨early, rfl⟩ := Nat.exists_eq_add_of_le hfirst
  obtain ⟨late, rfl⟩ := Nat.exists_eq_add_of_le hlast
  rw [filled, filled, filled, ← List.map_append, Nat.add_sub_cancel_left, Nat.add_sub_cancel_left,
    show first + early + late - first = early + late by omega]
  congr 1
  rw [List.range'_append_1]

theorem getElem?_filled (received : List Soft) {last i : ℕ} (hi : i < last) :
    (filled pattern received 0 last)[i]? = some (fill pattern received i) := by
  rw [filled, List.getElem?_map, Nat.sub_zero, List.getElem?_range' hi]
  simp

/-! ## The block functions -/

theorem puncture_snoc (coded : List Bool) (bit : Bool) : puncture (coded ++ [bit]) pattern =
    puncture coded pattern ++ if kept pattern coded.length then [bit] else [] := by
  rw [puncture, List.zipIdx_append, List.filterMap_append, puncture, Nat.zero_add]
  congr 1
  rw [List.zipIdx_singleton]
  dsimp only [List.filterMap_cons, List.filterMap_nil]
  cases kept pattern coded.length <;> rfl

theorem length_puncture (coded : List Bool) :
    (puncture coded pattern).length = rank pattern coded.length := by
  induction coded using List.reverseRecOn with
  | nil => rfl
  | append_singleton coded bit ih =>
    rw [puncture_snoc, List.length_append, ih, List.length_append, List.length_singleton, rank_succ]
    cases kept pattern coded.length <;> rfl

/-- A kept bit is where its rank says. -/
theorem getElem?_puncture (coded : List Bool) {i : ℕ} (hi : i < coded.length)
    (hkept : kept pattern i = true) : (puncture coded pattern)[rank pattern i]? = coded[i]? := by
  induction coded using List.reverseRecOn with
  | nil => exact absurd hi (Nat.not_lt_zero i)
  | append_singleton coded bit ih =>
    rw [puncture_snoc]
    rw [List.length_append, List.length_singleton] at hi
    rcases Nat.lt_succ_iff_lt_or_eq.mp hi with hlt | rfl
    · rw [List.getElem?_append_left (by rw [length_puncture]; exact rank_lt hkept hlt), ih hlt,
        List.getElem?_append_left hlt]
    · rw [hkept, if_pos rfl, ← length_puncture, List.getElem?_concat_length,
        List.getElem?_concat_length]

theorem depunctureCycle_spec (received : List Soft) (suffix : List Bool) {place : ℕ}
    (hsuffix : ∀ k (hk : k < suffix.length), kept pattern (place + k) = suffix[k])
    (hrank : rank pattern place ≤ received.length) :
    ∃ last, place ≤ last ∧ rank pattern last ≤ received.length ∧
      (depunctureCycle suffix (received.drop (rank pattern place))).1 =
        filled pattern received place last ∧
      ((last = place + suffix.length ∧
          (depunctureCycle suffix (received.drop (rank pattern place))).2 =
            some (received.drop (rank pattern last))) ∨
        (last < place + suffix.length ∧ kept pattern last = true ∧
          rank pattern last = received.length ∧
          (depunctureCycle suffix (received.drop (rank pattern place))).2 = none)) := by
  induction suffix generalizing place with
  | nil => exact ⟨place, le_rfl, hrank, (filled_self received place).symm, Or.inl ⟨rfl, rfl⟩⟩
  | cons keep suffix ih =>
    have hplace : kept pattern place = keep := hsuffix 0 (Nat.succ_pos _)
    have hnext : rank pattern (place + 1) = rank pattern place + (kept pattern place).toNat :=
      rank_succ place
    have hlater : ∀ k (hk : k < suffix.length), kept pattern (place + 1 + k) = suffix[k] := by
      intro k hk
      have hshifted := hsuffix (k + 1) (Nat.succ_lt_succ hk)
      rw [Nat.add_right_comm, Nat.add_assoc]
      exact hshifted
    rw [hplace] at hnext
    cases keep with
    | false =>
      rw [Bool.toNat_false, Nat.add_zero] at hnext
      obtain ⟨last, hlast, hranked, hout, hend⟩ := ih hlater (hnext ▸ hrank)
      rw [hnext] at hout hend
      refine ⟨last, by omega, hranked, ?_, ?_⟩
      · rw [filled_cons received (show place < last by omega), ← hout, fill, hplace]
        rfl
      · rw [List.length_cons, ← Nat.add_assoc, Nat.add_right_comm]
        exact hend
    | true =>
      rw [Bool.toNat_true] at hnext
      rcases Nat.lt_or_ge (rank pattern place) received.length with hmore | hdone
      · obtain ⟨last, hlast, hranked, hout, hend⟩ := ih hlater (by omega)
        rw [hnext] at hout hend
        rw [List.drop_eq_getElem_cons hmore]
        refine ⟨last, by omega, hranked, ?_, ?_⟩
        · rw [filled_cons received (show place < last by omega), ← hout, fill, hplace, if_pos rfl,
            List.getD_eq_getElem _ _ hmore]
          rfl
        · rw [List.length_cons, ← Nat.add_assoc, Nat.add_right_comm]
          exact hend
      · rw [List.drop_eq_nil_of_le hdone]
        refine ⟨place, le_rfl, hrank, (filled_self received place).symm, Or.inr ⟨?_, hplace, ?_, rfl⟩⟩
        · rw [List.length_cons]
          omega
        · omega

theorem depunctureCycles_spec (received : List Soft) (count cycles : ℕ)
    (hrank : rank pattern (cycles * pattern.length) ≤ received.length) :
    ∃ last, cycles * pattern.length ≤ last ∧ rank pattern last ≤ received.length ∧
      depunctureCycles pattern count (received.drop (rank pattern (cycles * pattern.length))) =
        filled pattern received (cycles * pattern.length) last ∧
      (last = (cycles + count) * pattern.length ∨ (last < (cycles + count) * pattern.length ∧
        kept pattern last = true ∧ rank pattern last = received.length)) := by
  induction count generalizing cycles with
  | zero =>
    exact ⟨cycles * pattern.length, le_rfl, hrank, (filled_self received _).symm, Or.inl rfl⟩
  | succ count ih =>
    have hpattern : ∀ k (hk : k < pattern.length),
        kept pattern (cycles * pattern.length + k) = pattern[k] := by
      intro k hk
      rw [kept, Nat.mul_add_mod_self_right, Nat.mod_eq_of_lt hk, List.getD_eq_getElem _ _ hk]
    have hcycle : (cycles + 1) * pattern.length = cycles * pattern.length + pattern.length :=
      Nat.succ_mul _ _
    obtain ⟨middle, hmiddle, hranked, hout, hend⟩ := depunctureCycle_spec received pattern hpattern hrank
    rw [depunctureCycles]
    generalize depunctureCycle pattern (received.drop (rank pattern (cycles * pattern.length))) =
      cycle at hout hend
    obtain ⟨out, rest⟩ := cycle
    dsimp only at hout hend ⊢
    rw [hout]
    rcases hend with ⟨rfl, hrest⟩ | ⟨hlt, hkept, hall, hrest⟩
    · rw [← hcycle] at hranked hrest hmiddle ⊢
      obtain ⟨last, hlast, hlastRank, hlater, hstop⟩ := ih (cycles + 1) hranked
      refine ⟨last, by omega, hlastRank, ?_, ?_⟩
      · rw [hrest]
        dsimp only
        rw [hlater, filled_append received hmiddle hlast]
      · rwa [Nat.add_assoc, Nat.add_comm 1] at hstop
    · refine ⟨middle, hmiddle, hranked, ?_, Or.inr ⟨?_, hkept, hall⟩⟩
      · rw [hrest]
      · calc
          middle < (cycles + 1) * pattern.length := by omega
          _ ≤ (cycles + (count + 1)) * pattern.length := Nat.mul_le_mul_right _ (by omega)

/-- The block output ends with the last cycle, or earlier at the kept place that finds no value. -/
theorem depuncture_spec (hpattern : true ∈ pattern) (received : List Soft) :
    ∃ last, depuncture received pattern = filled pattern received 0 last ∧
      rank pattern last = received.length ∧
      (last = (received.length + pattern.count true - 1) / pattern.count true * pattern.length ∨
        (last < (received.length + pattern.count true - 1) / pattern.count true * pattern.length ∧
          kept pattern last = true)) := by
  have hcount : 0 < pattern.count true := List.count_pos_iff.mpr hpattern
  have hzero : rank pattern (0 * pattern.length) = 0 := by
    rw [Nat.zero_mul]
    rfl
  obtain ⟨last, -, hranked, hout, hend⟩ := depunctureCycles_spec received
    ((received.length + pattern.count true - 1) / pattern.count true) 0
    (hzero ▸ Nat.zero_le _)
  rw [hzero, Nat.zero_mul, List.drop_zero] at hout
  rw [Nat.zero_add] at hend
  refine ⟨last, ?_, ?_, ?_⟩
  · rw [depuncture, if_neg hcount.ne', hout]
  · rcases hend with rfl | ⟨-, -, hall⟩
    · apply le_antisymm hranked
      rw [rank_cycles]
      have hceil := Nat.div_add_mod (received.length + pattern.count true - 1) (pattern.count true)
      have hmod := Nat.mod_lt (received.length + pattern.count true - 1) hcount
      rw [Nat.mul_comm] at hceil
      omega
    · exact hall
  · rcases hend with hend | ⟨hlt, hkept, -⟩
    · exact Or.inl hend
    · exact Or.inr ⟨hlt, hkept⟩

/-! ## The stateful function -/

theorem skip_spec (received : List Soft) {steps place : ℕ}
    (hfound : ∃ k < steps, kept pattern (place + k) = true) :
    ∃ next, place ≤ next ∧ kept pattern next = true ∧ rank pattern next = rank pattern place ∧
      Depuncturer.skip pattern steps (place % pattern.length) =
        (filled pattern received place next, next % pattern.length) := by
  induction steps generalizing place with
  | zero =>
    obtain ⟨k, hk, -⟩ := hfound
    exact absurd hk (Nat.not_lt_zero k)
  | succ steps ih =>
    rw [Depuncturer.skip]
    change ∃ next, _ ∧ _ ∧ _ ∧ (if kept pattern place then _ else _) = _
    cases hplace : kept pattern place with
    | true => exact ⟨place, le_rfl, hplace, rfl, by rw [if_pos rfl, filled_self]⟩
    | false =>
      have hlater : ∃ k < steps, kept pattern (place + 1 + k) = true := by
        obtain ⟨k, hk, hkept⟩ := hfound
        cases k with
        | zero => exact absurd (hplace.symm.trans hkept) Bool.false_ne_true
        | succ k => exact ⟨k, Nat.lt_of_succ_lt_succ hk, by rwa [Nat.add_right_comm, Nat.add_assoc]⟩
      obtain ⟨next, hnext, hkept, hrank, hskip⟩ := ih hlater
      rw [rank_succ, hplace, Bool.toNat_false, Nat.add_zero] at hrank
      refine ⟨next, by omega, hkept, hrank, ?_⟩
      rw [if_neg Bool.false_ne_true, Nat.mod_add_mod, hskip,
        filled_cons received (show place < next by omega), fill, hplace]
      rfl

/-- One pass over the pattern meets a kept place. -/
theorem exists_kept (hpattern : true ∈ pattern) (place : ℕ) :
    ∃ k < pattern.length, kept pattern (place + k) = true := by
  obtain ⟨index, hindex, hkept⟩ := List.getElem_of_mem hpattern
  have hlength : 0 < pattern.length := by omega
  refine ⟨(index + (pattern.length - place % pattern.length)) % pattern.length,
    Nat.mod_lt _ hlength, ?_⟩
  have hplace : (place + (index + (pattern.length - place % pattern.length)) % pattern.length) %
      pattern.length = index := by
    have hmod := Nat.mod_lt place hlength
    rw [Nat.add_mod_mod, ← Nat.mod_add_mod, show place % pattern.length +
      (index + (pattern.length - place % pattern.length)) = index + pattern.length by omega,
      Nat.add_mod_right, Nat.mod_eq_of_lt hindex]
  rw [kept, hplace, List.getD_eq_getElem _ _ hindex, hkept]

/-- The stateful output ends behind the last value. -/
theorem processValues_spec (hpattern : true ∈ pattern) (received values : List Soft) {place : ℕ}
    (hvalues : received.drop (rank pattern place) = values)
    (hrank : rank pattern place ≤ received.length) :
    ∃ last, place ≤ last ∧ rank pattern last = received.length ∧
      Depuncturer.processValues ⟨pattern, place % pattern.length⟩ values =
        (filled pattern received place last, ⟨pattern, last % pattern.length⟩) ∧
      (last = place ∨ ∃ final, last = final + 1 ∧ kept pattern final = true) := by
  induction values generalizing place with
  | nil =>
    have hall := List.drop_eq_nil_iff.mp hvalues
    exact ⟨place, le_rfl, by omega, by rw [filled_self]; rfl, Or.inl rfl⟩
  | cons value values ih =>
    have hmore : rank pattern place < received.length := by
      by_contra hdone
      rw [List.drop_eq_nil_of_le (Nat.not_lt.mp hdone)] at hvalues
      exact nomatch hvalues
    rw [List.drop_eq_getElem_cons hmore, List.cons.injEq] at hvalues
    obtain ⟨next, hnext, hkept, hsame, hskip⟩ := skip_spec received (exists_kept hpattern place)
    have hbehind : rank pattern (next + 1) = rank pattern next + (kept pattern next).toNat :=
      rank_succ next
    rw [hkept, hsame, Bool.toNat_true] at hbehind
    obtain ⟨last, hlast, hlastRank, hrun, hend⟩ := ih (hbehind ▸ hvalues.2) (by omega)
    refine ⟨last, by omega, hlastRank, ?_, Or.inr ?_⟩
    · rw [Depuncturer.processValues]
      dsimp only
      rw [hskip]
      dsimp only
      rw [Nat.mod_add_mod, hrun]
      dsimp only
      rw [← filled_append received hnext (show next ≤ last by omega),
        filled_cons received (show next < last by omega), fill, hkept, if_pos rfl, hsame,
        List.getD_eq_getElem _ _ hmore, hvalues.1]
    · rcases hend with rfl | hend
      · exact ⟨next, rfl, hkept⟩
      · exact hend

theorem processValues_append (d : Depuncturer) (first second : List Soft) :
    d.processValues (first ++ second) =
      ((d.processValues first).1 ++ ((d.processValues first).2.processValues second).1,
        ((d.processValues first).2.processValues second).2) := by
  induction first generalizing d with
  | nil => rfl
  | cons value first ih =>
    rw [List.cons_append, Depuncturer.processValues, Depuncturer.processValues]
    dsimp only
    rw [ih, List.append_assoc, List.cons_append]

theorem processValues_pattern (d : Depuncturer) (received : List Soft) :
    (d.processValues received).2.pattern = d.pattern := by
  induction received generalizing d with
  | nil => rfl
  | cons value received ih =>
    rw [Depuncturer.processValues]
    exact ih _

/-- It does not matter how the stream is cut. -/
theorem processChunks_eq {d : Depuncturer} (hpattern : d.pattern.any id = true)
    (chunks : List (List Soft)) : d.processChunks chunks = d.processValues chunks.flatten := by
  induction chunks generalizing d with
  | nil => rfl
  | cons chunk chunks ih =>
    have hnext : (d.processValues chunk).2.pattern.any id = true := by
      rwa [processValues_pattern]
    rw [Depuncturer.processChunks, Depuncturer.process, if_pos hpattern, List.flatten_cons,
      processValues_append]
    dsimp only
    rw [ih hnext]

/-! ## Agreement -/

theorem depuncture_puncture (hpattern : true ∈ pattern) (coded : List Bool) :
    ∃ last, depuncture ((puncture coded pattern).map soft) pattern =
        filled pattern ((puncture coded pattern).map soft) 0 last ∧
      rank pattern last = rank pattern coded.length ∧
      (pattern.length ∣ coded.length → last = coded.length) := by
  obtain ⟨last, hout, hrank, hend⟩ := depuncture_spec hpattern ((puncture coded pattern).map soft)
  rw [List.length_map, length_puncture] at hrank hend
  refine ⟨last, hout, hrank, ?_⟩
  rintro ⟨cycles, hcycles⟩
  have hcount : 0 < pattern.count true := List.count_pos_iff.mpr hpattern
  rw [Nat.mul_comm] at hcycles
  have hceil : (rank pattern coded.length + pattern.count true - 1) / pattern.count true = cycles := by
    rw [hcycles, rank_cycles]
    apply Nat.div_eq_of_lt_le
    · omega
    · rw [Nat.succ_mul]
      omega
  rw [hceil, ← hcycles] at hend
  rcases hend with hend | ⟨hlt, hkept⟩
  · exact hend
  · exact absurd (hrank ▸ rank_lt hkept hlt) (Nat.lt_irrefl _)

/-- Depuncturing puts every kept bit back and erasures where bits were dropped, and the stateful
function, however its stream is cut, leaves out only erasures at the end. -/
theorem depuncture_agrees (pattern : List Bool) (hpattern : true ∈ pattern) :
    (∀ coded : List Bool,
      let out := depuncture ((puncture coded pattern).map soft) pattern
      (∀ i (hi : i < coded.length), kept pattern i = true → out[i]? = some (soft coded[i])) ∧
      (∀ i < out.length, kept pattern i = true → i < coded.length) ∧
      (∀ i < out.length, kept pattern i = false → out[i]? = some erasure) ∧
      (pattern.length ∣ coded.length → out.length = coded.length)) ∧
    ∀ chunks : List (List Soft), ∃ missing,
      depuncture chunks.flatten pattern =
        ((Depuncturer.new pattern).processChunks chunks).1 ++ missing ∧
      ∀ value ∈ missing, value = erasure := by
  constructor
  · intro coded
    obtain ⟨last, hout, hrank, hlength⟩ := depuncture_puncture hpattern coded
    have hlast : (filled pattern ((puncture coded pattern).map soft) 0 last).length = last := by
      rw [filled, List.length_map, List.length_range', Nat.sub_zero]
    dsimp only
    rw [hout, hlast]
    refine ⟨?_, ?_, ?_, hlength⟩
    · intro i hi hkept
      have hin : i < last := by
        by_contra hbeyond
        have hle := rank_mono pattern (Nat.not_lt.mp hbeyond)
        have hlt := rank_lt hkept hi
        omega
      have hbit : ((puncture coded pattern).map soft)[rank pattern i]? = some (soft coded[i]) := by
        rw [List.getElem?_map, getElem?_puncture coded hi hkept, List.getElem?_eq_getElem hi]
        rfl
      rw [getElem?_filled _ hin, fill, hkept, if_pos rfl, List.getD_eq_getElem?_getD, hbit,
        Option.getD_some]
    · intro i hi hkept
      by_contra hbeyond
      have hle := rank_mono pattern (Nat.not_lt.mp hbeyond)
      have hlt := rank_lt hkept hi
      omega
    · intro i hi hdropped
      rw [getElem?_filled _ hi, fill, hdropped]
      rfl
  · intro chunks
    have hany : (Depuncturer.new pattern).pattern.any id = true :=
      List.any_eq_true.mpr ⟨true, hpattern, rfl⟩
    obtain ⟨blockEnd, hblock, hblockRank, -⟩ := depuncture_spec hpattern chunks.flatten
    have hzero : chunks.flatten.drop (rank pattern 0) = chunks.flatten := rfl
    obtain ⟨streamEnd, -, hstreamRank, hstream, hend⟩ :=
      processValues_spec hpattern chunks.flatten chunks.flatten hzero (Nat.zero_le _)
    rw [Nat.zero_mod] at hstream
    have hstart : Depuncturer.new pattern = ⟨pattern, 0⟩ := rfl
    have hle : streamEnd ≤ blockEnd := by
      rcases hend with rfl | ⟨final, rfl, hkept⟩
      · exact Nat.zero_le _
      · by_contra hbeyond
        have hearly := rank_mono pattern (show blockEnd ≤ final by omega)
        have hlt := rank_lt hkept (show final < final + 1 by omega)
        omega
    refine ⟨filled pattern chunks.flatten streamEnd blockEnd, ?_, ?_⟩
    · rw [processChunks_eq hany, hstart, hstream, filled_append _ (Nat.zero_le _) hle, hblock]
    · intro value hvalue
      obtain ⟨place, hplace, rfl⟩ := List.mem_map.mp hvalue
      obtain ⟨hfirst, hlt⟩ := List.mem_range'_1.mp hplace
      have hdropped : kept pattern place = false := by
        by_contra hkept
        have hmono := rank_mono pattern hfirst
        have hless := rank_lt (Bool.of_not_eq_false hkept) (show place < blockEnd by omega)
        omega
      rw [fill, hdropped]
      rfl

/-- The pattern of rate three quarters, with a stream that ends inside it. -/
theorem depuncture_agrees_threeQuarters :
    true ∈ [true, true, true, false, false, true] ∧
      (depuncture ((puncture [true, false, true, true] [true, true, true, false, false, true]).map soft)
        [true, true, true, false, false, true])[2]? = some (soft true) :=
  have hpattern : true ∈ [true, true, true, false, false, true] := by decide
  ⟨hpattern, ((depuncture_agrees _ hpattern).1 [true, false, true, true]).1 2 (by decide) (by decide)⟩

end Sdrmm.Conv7
