import Mathlib.Tactic
import Mathlib.Data.List.Basic

/-!
# Sorted maps

A map as the list of its entries in strictly increasing order of their keys, the view an ordered
map gives of itself.  Besides lookup and insertion there are the two neighbours of a key, `floor`
below and `ceil` above, which is what range queries of such a map are used for.
-/

namespace Sdrmm

structure SortedMap (κ α : Type*) [LinearOrder κ] where
  entries : List (κ × α)
  sorted : entries.Pairwise fun a b ↦ a.1 < b.1

namespace SortedMap

variable {κ α : Type*} [LinearOrder κ]

def empty : SortedMap κ α := ⟨[], .nil⟩

def keys (map : SortedMap κ α) : List κ := map.entries.map Prod.fst

def values (map : SortedMap κ α) : List α := map.entries.map Prod.snd

def contains (map : SortedMap κ α) (key : κ) : Bool := map.entries.any fun entry ↦ entry.1 = key

def get? (map : SortedMap κ α) (key : κ) : Option α :=
  (map.entries.find? fun entry ↦ entry.1 = key).map Prod.snd

def erase (map : SortedMap κ α) (key : κ) : SortedMap κ α where
  entries := map.entries.filter fun entry ↦ entry.1 ≠ key
  sorted := map.sorted.filter _

def retain (map : SortedMap κ α) (keep : κ → Bool) : SortedMap κ α where
  entries := map.entries.filter fun entry ↦ keep entry.1
  sorted := map.sorted.filter _

/-- Change the value of a key, if it has one. -/
def adjust (map : SortedMap κ α) (key : κ) (change : α → α) : SortedMap κ α where
  entries := map.entries.map fun entry ↦ if entry.1 = key then (key, change entry.2) else entry
  sorted := by
    rw [List.pairwise_map]
    refine map.sorted.imp fun {a b} hlt ↦ ?_
    split_ifs with ha hb hb
    · exact absurd hlt (ha.trans hb.symm).not_lt
    · exact ha ▸ hlt
    · exact hb ▸ hlt
    · exact hlt

/-- The first entry in the order of the keys that meets a condition. -/
def find? (map : SortedMap κ α) (cond : κ × α → Bool) : Option (κ × α) := map.entries.find? cond

/-- The last entry in the order of the keys that meets a condition. -/
def findRev? (map : SortedMap κ α) (cond : κ × α → Bool) : Option (κ × α) :=
  (map.entries.filter cond).getLast?

/-- The entry of the greatest key up to `key`. -/
def floor (map : SortedMap κ α) (key : κ) : Option (κ × α) :=
  (map.entries.filter fun entry ↦ entry.1 ≤ key).getLast?

/-- The entry of the least key from `key` on. -/
def ceil (map : SortedMap κ α) (key : κ) : Option (κ × α) :=
  map.entries.find? fun entry ↦ key ≤ entry.1

theorem insert_sorted (map : SortedMap κ α) (key : κ) (value : α) :
    (map.entries.filter (fun entry ↦ entry.1 < key) ++
      (key, value) :: map.entries.filter fun entry ↦ key < entry.1).Pairwise
        fun a b ↦ a.1 < b.1 := by
  rw [List.pairwise_append, List.pairwise_cons]
  refine ⟨map.sorted.filter _, ⟨?_, map.sorted.filter _⟩, ?_⟩
  · intro entry hentry
    exact of_decide_eq_true (List.mem_filter.mp hentry).2
  · intro low hlow high hhigh
    have hbelow : low.1 < key := of_decide_eq_true (List.mem_filter.mp hlow).2
    rcases List.mem_cons.mp hhigh with rfl | hhigh
    · exact hbelow
    · exact hbelow.trans (of_decide_eq_true (List.mem_filter.mp hhigh).2)

/-- Set the value of a key, replacing the one it has. -/
def insert (map : SortedMap κ α) (key : κ) (value : α) : SortedMap κ α where
  entries := map.entries.filter (fun entry ↦ entry.1 < key) ++
    (key, value) :: map.entries.filter fun entry ↦ key < entry.1
  sorted := insert_sorted map key value

variable {map : SortedMap κ α} {key : κ} {value : α}

theorem mem_insert {entry : κ × α} :
    entry ∈ (map.insert key value).entries ↔
      entry = (key, value) ∨ entry ∈ map.entries ∧ entry.1 ≠ key := by
  simp only [insert, List.mem_append, List.mem_cons, List.mem_filter, decide_eq_true_iff,
    ne_iff_lt_or_gt]
  tauto

theorem mem_insert_empty {entry : κ × α} :
    entry ∈ ((empty : SortedMap κ α).insert key value).entries ↔ entry = (key, value) := by
  rw [mem_insert]
  exact or_iff_left fun hnone ↦ List.not_mem_nil hnone.1

theorem contains_iff : map.contains key = true ↔ ∃ value, (key, value) ∈ map.entries := by
  simp only [contains, List.any_eq_true, decide_eq_true_iff, Prod.exists]
  constructor
  · rintro ⟨found, value, hmem, rfl⟩
    exact ⟨value, hmem⟩
  · rintro ⟨value, hmem⟩
    exact ⟨key, value, hmem, rfl⟩

theorem entries_inj {a b : κ × α} (ha : a ∈ map.entries) (hb : b ∈ map.entries)
    (hkey : a.1 = b.1) : a = b := by
  have hnodup : (map.entries.map Prod.fst).Nodup :=
    List.pairwise_map.mpr (map.sorted.imp ne_of_lt)
  exact List.inj_on_of_nodup_map hnodup ha hb hkey

theorem get?_eq_some : map.get? key = some value ↔ (key, value) ∈ map.entries := by
  rw [get?, Option.map_eq_some_iff]
  constructor
  · rintro ⟨⟨found, value⟩, hfind, rfl⟩
    have hkey : found = key := of_decide_eq_true (List.find?_some hfind :)
    exact hkey ▸ List.mem_of_find?_eq_some hfind
  · intro hmem
    have hsome : (map.entries.find? fun entry ↦ entry.1 = key).isSome := by
      rw [List.find?_isSome]
      exact ⟨(key, value), hmem, decide_eq_true rfl⟩
    obtain ⟨entry, hfind⟩ := Option.isSome_iff_exists.mp hsome
    have hkey : entry.1 = key := of_decide_eq_true (List.find?_some hfind :)
    exact ⟨entry, hfind,
      congrArg Prod.snd (entries_inj (List.mem_of_find?_eq_some hfind) hmem hkey)⟩

theorem contains_eq_isSome : map.contains key = (map.get? key).isSome := by
  rw [Bool.eq_iff_iff, contains_iff, Option.isSome_iff_exists]
  exact exists_congr fun _ ↦ get?_eq_some.symm

/-- A map is what is found in it. -/
theorem ext_get? {other : SortedMap κ α} (hsame : ∀ key, map.get? key = other.get? key) : map = other := by
  have hmem (entry : κ × α) : entry ∈ map.entries ↔ entry ∈ other.entries := by
    rw [← get?_eq_some, ← get?_eq_some, hsame]
  have hperm : map.entries.Perm other.entries := (List.perm_ext_iff_of_nodup (map.sorted.imp fun hlt heq ↦
    absurd (congrArg Prod.fst heq) hlt.ne) (other.sorted.imp fun hlt heq ↦
    absurd (congrArg Prod.fst heq) hlt.ne)).mpr hmem
  have hentries : map.entries = other.entries :=
    hperm.eq_of_pairwise (fun a b _ _ hab hba ↦ absurd hab hba.asymm) map.sorted other.sorted
  cases map
  cases other
  rw [SortedMap.mk.injEq]
  exact hentries

theorem get?_insert_self : (map.insert key value).get? key = some value :=
  get?_eq_some.mpr (mem_insert.mpr (Or.inl rfl))

theorem get?_insert_of_ne {other : κ} (hne : other ≠ key) :
    (map.insert key value).get? other = map.get? other := by
  apply Option.ext
  intro found
  rw [get?_eq_some, get?_eq_some, mem_insert]
  constructor
  · rintro (heq | ⟨hmem, -⟩)
    · exact absurd (congrArg Prod.fst heq) hne
    · exact hmem
  · exact fun hmem ↦ Or.inr ⟨hmem, hne⟩

@[simp]
theorem get?_empty : (empty : SortedMap κ α).get? key = none := rfl

/-- The last entry has the greatest key. -/
theorem le_of_getLast? {entry highest : κ × α} (hlast : map.entries.getLast? = some highest)
    (hentry : entry ∈ map.entries) : entry.1 ≤ highest.1 := by
  obtain ⟨init, hinit⟩ := List.getLast?_eq_some_iff.mp hlast
  have hsorted := map.sorted
  rw [hinit, List.pairwise_append] at hsorted
  rw [hinit] at hentry
  rcases List.mem_append.mp hentry with hentry | hentry
  · exact (hsorted.2.2 entry hentry highest (List.mem_singleton_self highest)).le
  · rw [List.mem_singleton.mp hentry]

/-- Inserting above every key appends. -/
theorem insert_entries_of_lt (hlt : ∀ entry ∈ map.entries, entry.1 < key) :
    (map.insert key value).entries = map.entries ++ [(key, value)] := by
  have hlow : map.entries.filter (fun entry ↦ entry.1 < key) = map.entries :=
    List.filter_eq_self.mpr fun entry hentry ↦ decide_eq_true (hlt entry hentry)
  have hhigh : map.entries.filter (fun entry ↦ key < entry.1) = [] :=
    List.filter_eq_nil_iff.mpr fun entry hentry ↦ by simpa using (hlt entry hentry).le
  change map.entries.filter (fun entry ↦ entry.1 < key) ++
    (key, value) :: map.entries.filter (fun entry ↦ key < entry.1) = _
  rw [hlow, hhigh]

theorem mem_adjust {change : α → α} {entry : κ × α} :
    entry ∈ (map.adjust key change).entries ↔
      entry ∈ map.entries ∧ entry.1 ≠ key ∨
        ∃ value, (key, value) ∈ map.entries ∧ entry = (key, change value) := by
  simp only [adjust, List.mem_map]
  constructor
  · rintro ⟨⟨found, value⟩, hmem, rfl⟩
    by_cases hkey : found = key
    · subst hkey
      exact Or.inr ⟨value, hmem, if_pos rfl⟩
    · rw [if_neg hkey]
      exact Or.inl ⟨hmem, hkey⟩
  · rintro (⟨hmem, hne⟩ | ⟨value, hmem, rfl⟩)
    · exact ⟨entry, hmem, if_neg hne⟩
    · exact ⟨(key, value), hmem, if_pos rfl⟩

theorem exists_of_mem_adjust {change : α → α} {entry : κ × α}
    (hentry : entry ∈ (map.adjust key change).entries) :
    ∃ value, (entry.1, value) ∈ map.entries ∧
      entry.2 = if entry.1 = key then change value else value := by
  rcases mem_adjust.mp hentry with ⟨hmem, hne⟩ | ⟨value, hmem, rfl⟩
  · exact ⟨entry.2, hmem, (if_neg hne).symm⟩
  · exact ⟨value, hmem, (if_pos rfl).symm⟩

theorem mem_keys : key ∈ map.keys ↔ ∃ value, (key, value) ∈ map.entries := by
  rw [keys, List.mem_map]
  constructor
  · rintro ⟨entry, hentry, rfl⟩
    exact ⟨entry.2, hentry⟩
  · rintro ⟨value, hentry⟩
    exact ⟨(key, value), hentry, rfl⟩

theorem adjust_keys {change : α → α} : (map.adjust key change).keys = map.keys := by
  rw [keys, adjust, List.map_map]
  apply List.map_congr_left
  intro entry _
  by_cases hkey : entry.1 = key
  · rw [Function.comp_apply, if_pos hkey, hkey]
  · rw [Function.comp_apply, if_neg hkey]

theorem get?_adjust_self {change : α → α} :
    (map.adjust key change).get? key = (map.get? key).map change := by
  apply Option.ext
  intro found
  rw [get?_eq_some, mem_adjust, Option.map_eq_some_iff]
  constructor
  · rintro (⟨-, hne⟩ | ⟨value, hmem, heq⟩)
    · exact absurd rfl hne
    · exact ⟨value, get?_eq_some.mpr hmem, (congrArg Prod.snd heq).symm⟩
  · rintro ⟨value, hget, rfl⟩
    exact Or.inr ⟨value, get?_eq_some.mp hget, rfl⟩

theorem mem_retain {keep : κ → Bool} {entry : κ × α} :
    entry ∈ (map.retain keep).entries ↔ entry ∈ map.entries ∧ keep entry.1 = true :=
  List.mem_filter

/-! ## Searches -/

theorem findRev?_eq_none {cond : κ × α → Bool} :
    map.findRev? cond = none ↔ ∀ entry ∈ map.entries, cond entry = false := by
  rw [findRev?, List.getLast?_eq_none_iff, List.filter_eq_nil_iff]
  simp only [Bool.not_eq_true]

/-- The last entry that meets a condition has the greatest key of those that do. -/
theorem findRev?_eq_some {cond : κ × α → Bool} {entry : κ × α} :
    map.findRev? cond = some entry ↔ entry ∈ map.entries ∧ cond entry = true ∧
      ∀ other ∈ map.entries, cond other = true → other.1 ≤ entry.1 := by
  have hfound : ∀ found, map.findRev? cond = some found → found ∈ map.entries ∧ cond found = true ∧
      ∀ other ∈ map.entries, cond other = true → other.1 ≤ found.1 := by
    intro found hfind
    have hmem := List.mem_filter.mp (List.mem_of_getLast? hfind)
    refine ⟨hmem.1, hmem.2, fun other hother hcond ↦ ?_⟩
    let kept : SortedMap κ α := ⟨map.entries.filter cond, map.sorted.filter _⟩
    have hlast : kept.entries.getLast? = some found := hfind
    exact le_of_getLast? hlast (List.mem_filter.mpr ⟨hother, hcond⟩)
  constructor
  · exact hfound entry
  · rintro ⟨hmem, hcond, hmax⟩
    cases hfind : map.findRev? cond with
    | none => exact absurd hcond (by rw [findRev?_eq_none.mp hfind entry hmem]; exact Bool.false_ne_true)
    | some found =>
      have hspec := hfound found hfind
      exact congrArg some (entries_inj hspec.1 hmem
        (le_antisymm (hmax found hspec.1 hspec.2.1) (hspec.2.2 entry hmem hcond)))

theorem find?_eq_none {cond : κ × α → Bool} :
    map.find? cond = none ↔ ∀ entry ∈ map.entries, cond entry = false := by
  rw [find?, List.find?_eq_none]
  simp only [Bool.not_eq_true]

/-- The first entry that meets a condition has the least key of those that do. -/
theorem find?_eq_some {cond : κ × α → Bool} {entry : κ × α} :
    map.find? cond = some entry ↔ entry ∈ map.entries ∧ cond entry = true ∧
      ∀ other ∈ map.entries, cond other = true → entry.1 ≤ other.1 := by
  have hfound : ∀ found, map.find? cond = some found → found ∈ map.entries ∧ cond found = true ∧
      ∀ other ∈ map.entries, cond other = true → found.1 ≤ other.1 := by
    intro found hfind
    obtain ⟨hcond, before, after, hsplit, hbefore⟩ := List.find?_eq_some_iff_append.mp hfind
    refine ⟨List.mem_of_find?_eq_some hfind, hcond, fun other hother hother' ↦ ?_⟩
    have hsorted := map.sorted
    rw [hsplit, List.pairwise_append, List.pairwise_cons] at hsorted
    rw [hsplit, List.mem_append, List.mem_cons] at hother
    rcases hother with hother | rfl | hother
    · have hnot := hbefore other hother
      rw [hother', Bool.not_true] at hnot
      exact absurd hnot Bool.false_ne_true
    · exact le_rfl
    · exact (hsorted.2.1.1 other hother).le
  constructor
  · exact hfound entry
  · rintro ⟨hmem, hcond, hmin⟩
    cases hfind : map.find? cond with
    | none => exact absurd hcond (by rw [find?_eq_none.mp hfind entry hmem]; exact Bool.false_ne_true)
    | some found =>
      have hspec := hfound found hfind
      exact congrArg some (entries_inj hspec.1 hmem
        (le_antisymm (hspec.2.2 entry hmem hcond) (hmin found hspec.1 hspec.2.1)))

/-! ## Neighbours -/

theorem floor_eq_none : map.floor key = none ↔ ∀ entry ∈ map.entries, key < entry.1 := by
  rw [floor, List.getLast?_eq_none_iff, List.filter_eq_nil_iff]
  simp only [decide_eq_true_iff, not_le]

/-- The floor of a key is the entry that has nothing between itself and the key. -/
theorem floor_eq_some {entry : κ × α} :
    map.floor key = some entry ↔ entry ∈ map.entries ∧ entry.1 ≤ key ∧
      ∀ other ∈ map.entries, other.1 ≤ key → other.1 ≤ entry.1 := by
  have hfloor : map.floor key = map.findRev? fun entry ↦ decide (entry.1 ≤ key) := rfl
  rw [hfloor, findRev?_eq_some]
  simp only [decide_eq_true_iff]

theorem floor_mem {entry : κ × α} (hfloor : map.floor key = some entry) :
    entry ∈ map.entries ∧ entry.1 ≤ key :=
  ⟨(floor_eq_some.mp hfloor).1, (floor_eq_some.mp hfloor).2.1⟩

theorem le_floor {entry other : κ × α} (hfloor : map.floor key = some entry)
    (hother : other ∈ map.entries) (hle : other.1 ≤ key) : other.1 ≤ entry.1 :=
  (floor_eq_some.mp hfloor).2.2 other hother hle

theorem ceil_eq_none : map.ceil key = none ↔ ∀ entry ∈ map.entries, entry.1 < key := by
  rw [ceil, List.find?_eq_none]
  simp only [decide_eq_true_iff, not_le]

theorem ceil_eq_some {entry : κ × α} :
    map.ceil key = some entry ↔ entry ∈ map.entries ∧ key ≤ entry.1 ∧
      ∀ other ∈ map.entries, key ≤ other.1 → entry.1 ≤ other.1 := by
  have hceil : map.ceil key = map.find? fun entry ↦ decide (key ≤ entry.1) := rfl
  rw [hceil, find?_eq_some]
  simp only [decide_eq_true_iff]

theorem ceil_mem {entry : κ × α} (hceil : map.ceil key = some entry) :
    entry ∈ map.entries ∧ key ≤ entry.1 :=
  ⟨(ceil_eq_some.mp hceil).1, (ceil_eq_some.mp hceil).2.1⟩

theorem ceil_le {entry other : κ × α} (hceil : map.ceil key = some entry)
    (hother : other ∈ map.entries) (hle : key ≤ other.1) : entry.1 ≤ other.1 :=
  (ceil_eq_some.mp hceil).2.2 other hother hle

end SortedMap

end Sdrmm
