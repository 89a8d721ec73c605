import Mathlib.Tactic

/-!
# Selecting from a list

`maxByKey` is `Iterator::max_by_key`: among several elements of greatest key the last one wins.
-/

namespace Sdrmm.Iter

variable {α κ : Type*} [LinearOrder κ] (key : α → κ)

def maxByKey : List α → Option α
  | [] => none
  | first :: rest =>
      some (rest.foldl (fun best candidate ↦ if key candidate < key best then best else candidate)
        first)

theorem maxByKey_fold (rest : List α) (first : α) :
    let best := rest.foldl
      (fun best candidate ↦ if key candidate < key best then best else candidate) first
    best ∈ first :: rest ∧ ∀ a ∈ first :: rest, key a ≤ key best := by
  induction rest generalizing first with
  | nil => simp
  | cons second rest ih =>
    rw [List.foldl_cons]
    by_cases h : key second < key first
    · rw [if_pos h]
      obtain ⟨hmem, hmax⟩ := ih first
      have hfirst := hmax first (List.mem_cons_self ..)
      refine ⟨?_, ?_⟩
      · rcases List.mem_cons.mp hmem with heq | hrest
        · rw [heq]
          exact List.mem_cons_self ..
        · exact List.mem_cons_of_mem _ (List.mem_cons_of_mem _ hrest)
      · intro a ha
        rcases List.mem_cons.mp ha with rfl | ha
        · exact hfirst
        · rcases List.mem_cons.mp ha with rfl | ha
          · exact h.le.trans hfirst
          · exact hmax a (List.mem_cons_of_mem _ ha)
    · rw [if_neg h]
      obtain ⟨hmem, hmax⟩ := ih second
      refine ⟨List.mem_cons_of_mem _ hmem, ?_⟩
      intro a ha
      rcases List.mem_cons.mp ha with rfl | ha
      · exact (not_lt.mp h).trans (hmax second (List.mem_cons_self ..))
      · exact hmax a ha

theorem maxByKey_mem {list : List α} {best : α} (h : maxByKey key list = some best) :
    best ∈ list := by
  match list, h with
  | first :: rest, h =>
    obtain rfl := Option.some.inj h
    exact (maxByKey_fold key rest first).1

theorem le_maxByKey {list : List α} {best : α} (h : maxByKey key list = some best) :
    ∀ a ∈ list, key a ≤ key best := by
  match list, h with
  | first :: rest, h =>
    obtain rfl := Option.some.inj h
    exact (maxByKey_fold key rest first).2

theorem maxByKey_isSome {list : List α} (h : list ≠ []) : ∃ best, maxByKey key list = some best := by
  match list, h with
  | first :: rest, _ => exact ⟨_, rfl⟩

/-- Sorting items by distinct keys counts none of them twice. -/
theorem sum_length_filter_le {β : Type*} [DecidableEq β] (tag : α → β) {tags : List β}
    (hnodup : tags.Nodup) (items : List α) :
    (tags.map fun b ↦ (items.filter fun a ↦ tag a = b).length).sum ≤ items.length := by
  induction tags generalizing items with
  | nil => simp
  | cons first tags ih =>
    rw [List.nodup_cons] at hnodup
    have hrest : (tags.map fun b ↦ (items.filter fun a ↦ tag a = b).length) =
        tags.map fun b ↦ ((items.filter fun a ↦ !decide (tag a = first)).filter
          fun a ↦ tag a = b).length := by
      refine List.map_congr_left ?_
      intro b hb
      have hne : b ≠ first := fun h ↦ hnodup.1 (h ▸ hb)
      rw [List.filter_filter]
      refine congrArg List.length (List.filter_congr ?_)
      intro a _
      by_cases htag : tag a = b
      · simp [htag, hne]
      · simp [htag]
    have hsplit := List.length_eq_length_filter_add (l := items) fun a ↦ decide (tag a = first)
    rw [List.map_cons, List.sum_cons, hrest, hsplit]
    exact Nat.add_le_add_left (ih hnodup.2 _) _

end Sdrmm.Iter
