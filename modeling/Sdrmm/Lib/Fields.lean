import Mathlib.Data.List.Basic
import Mathlib.Tactic

/-!
# Writes field by field

A store whose fields are set by writes, where a write may first make the record that its field belongs to.  A
sequence of writes leaves the store as it is if and only if the last write to each field tells what the store
holds there already: earlier writes to the same field are of no account.
-/

namespace Sdrmm.Fields

/-- How writes act on a store.  A write has a field, it is held once the field has its value, and its field is
known while the record that it belongs to is there. -/
structure Law {σ υ κ : Type*} (write : σ → υ → σ) (field : υ → κ) (Held Known : σ → υ → Prop) : Prop where
  held_write : ∀ state update, Held (write state update) update
  held_write_of_ne : ∀ {state update other}, field other ≠ field update → Known state update →
    (Held (write state other) update ↔ Held state update)
  known_of_held : ∀ {state update}, Held state update → Known state update
  known_write : ∀ {state update} (other), Known state update → Known (write state other) update
  known_of_write : ∀ {state update other}, Known state other → Known (write state other) update → Known state update
  known_congr : ∀ {state update other}, field update = field other → Known state update → Known state other
  unique : ∀ {state update other}, field update = field other → Held state update → Held state other → update = other
  ext : ∀ {state other}, (∀ update, Held state update ↔ Held other update) → state = other

variable {σ υ κ : Type*}

section Writes

variable {write : σ → υ → σ} {field : υ → κ} {Held Known : σ → υ → Prop} (law : Law write field Held Known)

include law

/-- Writes to other fields leave a field as it is. -/
theorem held_foldl_of_ne {state : σ} {update : υ} {updates : List υ} (hfield : field update ∉ updates.map field)
    (hknown : Known state update) : Held (updates.foldl write state) update ↔ Held state update := by
  induction updates generalizing state with
  | nil => exact Iff.rfl
  | cons first rest ih =>
    rw [List.map_cons, List.mem_cons, not_or] at hfield
    exact (ih hfield.2 (law.known_write first hknown)).trans
      (law.held_write_of_ne (fun heq ↦ hfield.1 heq.symm) hknown)

/-- Where the writes are of records that are there, no record becomes known. -/
theorem known_of_foldl {state : σ} {updates : List υ} (hthere : ∀ update ∈ updates, Known state update) {update : υ}
    (hknown : Known (updates.foldl write state) update) : Known state update := by
  induction updates generalizing state with
  | nil => exact hknown
  | cons first rest ih =>
    have hfirst := hthere first List.mem_cons_self
    have hrest (other : υ) (hother : other ∈ rest) : Known (write state first) other :=
      law.known_write first (hthere other (List.mem_cons_of_mem _ hother))
    exact law.known_of_write hfirst (ih hrest hknown)

end Writes

section Settled

variable [DecidableEq κ]

/-- The last write to each field. -/
def settled (field : υ → κ) : List υ → List υ
  | [] => []
  | update :: rest =>
    if field update ∈ rest.map field then settled field rest else update :: settled field rest

/-- Every field that is written to is written to last. -/
theorem exists_settled (field : υ → κ) {updates : List υ} {update : υ} (hmem : update ∈ updates) :
    ∃ last ∈ settled field updates, field last = field update := by
  induction updates generalizing update with
  | nil => exact absurd hmem List.not_mem_nil
  | cons first rest ih =>
    rw [settled]
    split_ifs with hagain
    · rcases List.mem_cons.mp hmem with rfl | hlater
      · obtain ⟨other, hother, heq⟩ := List.mem_map.mp hagain
        obtain ⟨last, hlast, hfield⟩ := ih hother
        exact ⟨last, hlast, hfield.trans heq⟩
      · exact ih hlater
    · rcases List.mem_cons.mp hmem with rfl | hlater
      · exact ⟨update, List.mem_cons_self, rfl⟩
      · obtain ⟨last, hlast, hfield⟩ := ih hlater
        exact ⟨last, List.mem_cons_of_mem _ hlast, hfield⟩

variable {write : σ → υ → σ} {field : υ → κ} {Held Known : σ → υ → Prop} (law : Law write field Held Known)

include law

/-- The last write to a field is what is held there in the end. -/
theorem held_foldl {state : σ} {update : υ} {updates : List υ} (hlast : update ∈ settled field updates) :
    Held (updates.foldl write state) update := by
  induction updates generalizing state with
  | nil => exact absurd hlast List.not_mem_nil
  | cons first rest ih =>
    rw [settled] at hlast
    split_ifs at hlast with hagain
    · exact ih hlast
    · rcases List.mem_cons.mp hlast with rfl | hlater
      · have hnow := law.held_write state update
        exact (held_foldl_of_ne law hagain (law.known_of_held hnow)).mpr hnow
      · exact ih hlater

/-- The store stays as it is where the last write to each field tells what is held. -/
theorem foldl_eq_self_iff (state : σ) (updates : List υ) :
    updates.foldl write state = state ↔ ∀ update ∈ settled field updates, Held state update := by
  constructor
  · intro hsame update hlast
    have hheld : Held (updates.foldl write state) update := held_foldl law hlast
    rwa [hsame] at hheld
  · intro hheld
    have hthere (update : υ) (hupdate : update ∈ updates) : Known state update := by
      obtain ⟨last, hlast, hfield⟩ := exists_settled field hupdate
      exact law.known_congr hfield (law.known_of_held (hheld last hlast))
    apply law.ext
    intro update
    rcases Decidable.em (field update ∈ updates.map field) with hwritten | hother
    · obtain ⟨other, hother, heq⟩ := List.mem_map.mp hwritten
      obtain ⟨last, hlast, hfield⟩ := exists_settled field hother
      have hsame : field last = field update := hfield.trans heq
      constructor
      · intro hafter
        have heq := law.unique hsame (held_foldl law hlast) hafter
        exact heq ▸ hheld last hlast
      · intro hbefore
        have heq := law.unique hsame (hheld last hlast) hbefore
        exact heq ▸ held_foldl law hlast
    · constructor
      · intro hafter
        exact (held_foldl_of_ne law hother (known_of_foldl law hthere (law.known_of_held hafter))).mp hafter
      · intro hbefore
        exact (held_foldl_of_ne law hother (law.known_of_held hbefore)).mpr hbefore

end Settled

end Sdrmm.Fields
