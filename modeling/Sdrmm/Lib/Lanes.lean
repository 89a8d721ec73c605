import Mathlib.Data.List.GetD
import Mathlib.Tactic

/-!
# Lanes of a block

The entries of a block that are a fixed number of places apart.  The lanes of a block divide it, so
writing one leaves the others as they were, and a run of places meets every lane equally often.
-/

namespace Sdrmm.Lanes

variable {α : Type*} {blank : α} {depth lane start : ℕ}

/-- The first entries of a lane. -/
def read (blank : α) (depth lane count : ℕ) (block : List α) : List α :=
  (List.range count).map fun index ↦ block.getD (index * depth + lane) blank

/-- Write the first entries of a lane of what begins at `start`. -/
def write (depth lane start : ℕ) (symbols block : List α) : List α :=
  symbols.zipIdx.foldl (fun block (symbol, index) ↦
    block.set (start + index * depth + lane) symbol) block

theorem write_snoc (symbols block : List α) (symbol : α) :
    write depth lane start (symbols ++ [symbol]) block =
      (write depth lane start symbols block).set (start + symbols.length * depth + lane) symbol := by
  unfold write
  rw [List.zipIdx_append, List.foldl_append, List.zipIdx_singleton, List.foldl_cons, List.foldl_nil,
    Nat.zero_add]

theorem length_write (symbols block : List α) :
    (write depth lane start symbols block).length = block.length := by
  induction symbols using List.reverseRecOn with
  | nil => rfl
  | append_singleton symbols symbol ih => rw [write_snoc, List.length_set, ih]

theorem getD_write_of_ne {symbols block : List α} {i : ℕ}
    (hne : ∀ index < symbols.length, i ≠ start + index * depth + lane) :
    (write depth lane start symbols block).getD i blank = block.getD i blank := by
  induction symbols using List.reverseRecOn with
  | nil => rfl
  | append_singleton symbols symbol ih =>
    rw [List.length_append, List.length_singleton] at hne
    have hlast := hne symbols.length (Nat.lt_succ_self _)
    rw [write_snoc, List.getD_eq_getElem?_getD, List.getElem?_set_ne hlast.symm,
      ← List.getD_eq_getElem?_getD]
    apply ih
    intro index hindex
    exact hne index (Nat.lt_succ_of_lt hindex)

theorem getD_write (hdepth : 0 < depth) {symbols block : List α} {index : ℕ}
    (hindex : index < symbols.length) (hfits : start + index * depth + lane < block.length) :
    (write depth lane start symbols block).getD (start + index * depth + lane) blank =
      symbols.getD index blank := by
  induction symbols using List.reverseRecOn with
  | nil => exact absurd hindex (Nat.not_lt_zero _)
  | append_singleton symbols symbol ih =>
    rw [List.length_append, List.length_singleton] at hindex
    rw [write_snoc, List.getD_eq_getElem?_getD, List.getElem?_set, length_write]
    rcases Nat.lt_succ_iff_lt_or_eq.mp hindex with hlow | hlast
    · have hne : start + symbols.length * depth + lane ≠ start + index * depth + lane := by
        have hmul : index * depth < symbols.length * depth :=
          Nat.mul_lt_mul_of_pos_right hlow hdepth
        omega
      rw [if_neg hne, ← List.getD_eq_getElem?_getD, ih hlow, List.getD_append _ _ _ _ hlow]
    · subst hlast
      rw [if_pos rfl, if_pos hfits, List.getD_eq_getElem?_getD, List.getElem?_concat_length]

/-- What comes before the block is left alone. -/
theorem write_append (symbols before block : List α) :
    write depth lane before.length symbols (before ++ block) =
      before ++ write depth lane 0 symbols block := by
  induction symbols using List.reverseRecOn with
  | nil => rfl
  | append_singleton symbols symbol ih =>
    have hplace : before.length + symbols.length * depth + lane - before.length =
        0 + symbols.length * depth + lane := by omega
    rw [write_snoc, write_snoc, ih, List.set_append_right _ _ (by omega), hplace]

theorem place_inj {index other first second : ℕ} (hfirst : first < depth) (hsecond : second < depth)
    (hplace : index * depth + first = other * depth + second) : index = other ∧ first = second := by
  have hdepth : 0 < depth := Nat.zero_lt_of_lt hfirst
  have hdiv := congrArg (· / depth) hplace
  have hmod := congrArg (· % depth) hplace
  simp only [Nat.mul_comm _ depth, Nat.mul_add_div hdepth, Nat.div_eq_of_lt hfirst,
    Nat.div_eq_of_lt hsecond, Nat.mul_add_mod, Nat.mod_eq_of_lt hfirst,
    Nat.mod_eq_of_lt hsecond] at hdiv hmod
  exact ⟨hdiv, hmod⟩

theorem place_lt {index count : ℕ} (hlane : lane < depth) (hindex : index < count) :
    index * depth + lane < count * depth := by
  have hle : (index + 1) * depth ≤ count * depth := Nat.mul_le_mul_right depth hindex
  rw [Nat.add_mul, Nat.one_mul] at hle
  omega

theorem length_read (count : ℕ) (block : List α) : (read blank depth lane count block).length = count := by
  rw [read, List.length_map, List.length_range]

theorem getD_read {count index : ℕ} (hindex : index < count) (block : List α) :
    (read blank depth lane count block).getD index blank =
      block.getD (index * depth + lane) blank := by
  rw [read, List.getD_eq_getElem?_getD, List.getElem?_map, List.getElem?_range hindex]
  rfl

theorem read_congr {count : ℕ} {first second : List α}
    (hsame : ∀ index < count,
      first.getD (index * depth + lane) blank = second.getD (index * depth + lane) blank) :
    read blank depth lane count first = read blank depth lane count second := by
  apply List.map_congr_left
  intro index hindex
  exact hsame index (List.mem_range.mp hindex)

theorem read_write_self (hlane : lane < depth) {count : ℕ} {symbols block : List α}
    (hsymbols : symbols.length = count) (hfits : count * depth ≤ block.length) :
    read blank depth lane count (write depth lane 0 symbols block) = symbols := by
  have hdepth : 0 < depth := Nat.zero_lt_of_lt hlane
  apply List.ext_getElem
  · rw [length_read, hsymbols]
  · intro index hread hindex
    rw [length_read] at hread
    have hplace := place_lt hlane hread
    have hwritten : (write depth lane 0 symbols block).getD (0 + index * depth + lane) blank =
        symbols.getD index blank := by
      apply getD_write hdepth hindex
      omega
    rw [Nat.zero_add, List.getD_eq_getElem _ _ hindex] at hwritten
    have hentry := @getD_read α blank depth lane count index hread
      (write depth lane 0 symbols block)
    rw [List.getD_eq_getElem _ _ (by rw [length_read]; exact hread)] at hentry
    exact hentry.trans hwritten

theorem read_write_of_ne {other : ℕ} (hlane : lane < depth) (hother : other < depth)
    (hne : other ≠ lane) (count : ℕ) (symbols block : List α) :
    read blank depth other count (write depth lane 0 symbols block) =
      read blank depth other count block := by
  apply read_congr
  intro index _
  apply getD_write_of_ne
  intro entry _ hplace
  rw [Nat.zero_add] at hplace
  exact hne (place_inj hother hlane hplace).2

/-- A block is given by its lanes. -/
theorem ext_read {count : ℕ} {first second : List α} (hfirst : first.length = count * depth)
    (hsecond : second.length = count * depth)
    (hlanes : ∀ lane < depth,
      read blank depth lane count first = read blank depth lane count second) :
    first = second := by
  apply List.ext_getElem (hfirst.trans hsecond.symm)
  intro i hi hi'
  have hdepth : 0 < depth := by
    apply Nat.pos_of_ne_zero
    intro hzero
    rw [hfirst, hzero, Nat.mul_zero] at hi
    exact absurd hi (Nat.not_lt_zero _)
  have hindex : i / depth < count := by
    rw [Nat.div_lt_iff_lt_mul hdepth, ← hfirst]
    exact hi
  have hentry := congrArg (fun symbols ↦ symbols.getD (i / depth) blank)
    (hlanes (i % depth) (Nat.mod_lt i hdepth))
  simp only [getD_read hindex, Nat.div_add_mod'] at hentry
  rwa [List.getD_eq_getElem _ _ hi, List.getD_eq_getElem _ _ hi'] at hentry

/-! ## Counting -/

theorem countP_eq_sum {ι : Type*} (p : ι → Bool) (items : List ι) :
    items.countP p = (items.map fun item ↦ if p item then 1 else 0).sum := by
  induction items with
  | nil => rfl
  | cons item items ih => rw [List.countP_cons, List.map_cons, List.sum_cons, ih, Nat.add_comm]

/-- What is counted over a block is counted over its lanes. -/
theorem countP_lanes (depth count : ℕ) (p : ℕ → Bool) :
    (List.range (count * depth)).countP p =
      ((List.range depth).map fun lane ↦
        (List.range count).countP fun index ↦ p (index * depth + lane)).sum := by
  induction count with
  | zero => simp
  | succ count ih =>
    have hsplit (lane : ℕ) : (List.range (count + 1)).countP (fun index ↦ p (index * depth + lane)) =
        (List.range count).countP (fun index ↦ p (index * depth + lane)) +
          (if p (count * depth + lane) then 1 else 0) := by
      rw [List.range_succ, List.countP_append, List.countP_singleton]
    simp only [hsplit]
    rw [Nat.add_mul, Nat.one_mul, List.range_add, List.countP_append, List.countP_map, ih,
      List.sum_map_add, countP_eq_sum]
    rfl

/-- A run of places as long as `times` rows meets a lane at most `times` times. -/
theorem countP_run_le (hlane : lane < depth) (start times count : ℕ) (p : ℕ → Bool)
    (hrun : ∀ i, p i = true → start ≤ i ∧ i < start + times * depth) :
    (List.range count).countP (fun index ↦ p (index * depth + lane)) ≤ times := by
  let first := (start + depth - 1 - lane) / depth
  have hdepth : 0 < depth := Nat.zero_lt_of_lt hlane
  have hfirst : start + depth - 1 - lane < first * depth + depth := Nat.lt_div_mul_add hdepth
  have hsubset : (List.range count).filter (fun index ↦ p (index * depth + lane)) ⊆
      List.range' first times := by
    intro index hmem
    obtain ⟨hlow, hhigh⟩ := hrun _ (List.mem_filter.mp hmem).2
    rw [List.mem_range'_1]
    constructor
    · apply Nat.le_of_lt_succ
      rw [Nat.div_lt_iff_lt_mul hdepth, Nat.succ_mul]
      omega
    · apply Nat.lt_of_mul_lt_mul_right (a := depth)
      rw [Nat.add_mul]
      omega
  have hnodup : ((List.range count).filter fun index ↦ p (index * depth + lane)).Nodup :=
    List.nodup_range.filter _
  rw [List.countP_eq_length_filter]
  calc
    _ ≤ (List.range' first times).length := (hnodup.subperm hsubset).length_le
    _ = times := List.length_range'

end Sdrmm.Lanes
