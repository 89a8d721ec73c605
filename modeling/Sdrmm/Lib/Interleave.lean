import Mathlib.Data.Nat.Notation
import Mathlib.Logic.Function.Basic
import Mathlib.Logic.Relation

/-!
# Programs that share a state

A program is a chain of atomic steps on a shared state.  `Safe rely guar post program state` says that
whatever the others do to the state within `rely`, every step of the program stays within `guar`, and its
result meets `post`.  Programs whose guarantees lie within each other's relies run together in any order.
-/

namespace Sdrmm

/-- `halt` is a program that takes no more steps, as one does that is cut off in a loop. -/
inductive Prog (σ α : Type) where
  | done (value : α)
  | halt
  | step (change : σ → σ) (next : σ → Prog σ α)

namespace Prog

variable {σ α β ι : Type}

def bind : Prog σ α → (α → Prog σ β) → Prog σ β
  | done value, next => next value
  | halt, _ => halt
  | step change after, next => step change fun state ↦ (after state).bind next

instance : Monad (Prog σ) where
  pure := done
  bind := bind

/-- One atomic step with a result. -/
def access (f : σ → α × σ) : Prog σ α := step (fun state ↦ (f state).2) fun state ↦ done (f state).1

/-- A program for each item, one after the other. -/
def each (items : List β) (body : β → Prog σ Unit) : Prog σ Unit :=
  match items with
  | [] => done ()
  | item :: rest => (body item).bind fun _ ↦ each rest body

/-- The programs and the state after the steps of a schedule. -/
def run [DecidableEq ι] (programs : ι → Prog σ α) (state : σ) : List ι → (ι → Prog σ α) × σ
  | [] => (programs, state)
  | turn :: schedule =>
      match programs turn with
      | step change next => run (Function.update programs turn (next state)) (change state) schedule
      | _ => run programs state schedule

/-- Wait for a change that may not be possible yet, with so many tries. -/
def acquire (take : σ → Option σ) : ℕ → Prog σ Unit
  | 0 => halt
  | tries + 1 =>
    (access fun state ↦ ((take state).isSome, (take state).getD state)).bind fun taken ↦
      if taken then done () else acquire take tries

/-! ## Rely and guarantee -/

def Safe (rely guar : σ → σ → Prop) (post : α → σ → Prop) : Prog σ α → σ → Prop
  | done value, state => ∀ after, rely state after → post value after
  | halt, _ => True
  | step change next, state => ∀ before, rely state before →
      guar before (change before) ∧ Safe rely guar post (next before) (change before)

variable {rely guar : σ → σ → Prop} {post : α → σ → Prop} {state after : σ}

theorem Safe.of_rely (htrans : ∀ a b c, rely a b → rely b c → rely a c) {program : Prog σ α}
    (hsafe : Safe rely guar post program state) (hrely : rely state after) :
    Safe rely guar post program after := by
  cases program with
  | done value => exact fun last hlast ↦ hsafe last (htrans _ _ _ hrely hlast)
  | halt => trivial
  | step change next => exact fun last hlast ↦ hsafe last (htrans _ _ _ hrely hlast)

theorem Safe.bind (hrefl : ∀ a, rely a a) {program : Prog σ α} {next : α → Prog σ β}
    {post : β → σ → Prop}
    (hsafe : Safe rely guar (fun value after ↦ Safe rely guar post (next value) after) program state) :
    Safe rely guar post (program.bind next) state := by
  induction program generalizing state with
  | done value => exact hsafe state (hrefl state)
  | halt => trivial
  | step change rest ih =>
    intro before hbefore
    obtain ⟨hguar, hrest⟩ := hsafe before hbefore
    exact ⟨hguar, ih before hrest⟩

theorem Safe.imp {post' : α → σ → Prop} {program : Prog σ α}
    (hsafe : Safe rely guar post program state) (himp : ∀ value after, post value after → post' value after) :
    Safe rely guar post' program state := by
  induction program generalizing state with
  | done value => exact fun last hlast ↦ himp value last (hsafe last hlast)
  | halt => trivial
  | step change rest ih =>
    intro before hbefore
    obtain ⟨hguar, hrest⟩ := hsafe before hbefore
    exact ⟨hguar, ih before hrest⟩

/-- A loop keeps `inv`, which tells how many items are left. -/
theorem Safe.each (hrefl : ∀ a, rely a a) {body : β → Prog σ Unit} (inv : List β → σ → Prop)
    (hinv : ∀ items a b, inv items a → rely a b → inv items b)
    (hbody : ∀ item rest state, inv (item :: rest) state →
      Safe rely guar (fun _ after ↦ inv rest after) (body item) state)
    (items : List β) (hstate : inv items state) :
    Safe rely guar (fun _ after ↦ inv [] after) (Prog.each items body) state := by
  induction items generalizing state with
  | nil => exact fun after hafter ↦ hinv [] _ _ hstate hafter
  | cons item rest ih => exact Safe.bind hrefl ((hbody item rest state hstate).imp fun _ after hafter ↦ ih hafter)

section Run

variable [DecidableEq ι] {relies guars : ι → σ → σ → Prop} {posts : ι → α → σ → Prop}

/-- Programs that are safe together stay so in every order of their steps. -/
theorem safe_run (htrans : ∀ i a b c, relies i a b → relies i b c → relies i a c)
    (hother : ∀ i j, i ≠ j → ∀ a b, guars i a b → relies j a b) (programs : ι → Prog σ α) (state : σ)
    (schedule : List ι) (hrefl : ∀ i a, relies i a a)
    (hsafe : ∀ i, Safe (relies i) (guars i) (posts i) (programs i) state) (i : ι) :
    Safe (relies i) (guars i) (posts i) ((run programs state schedule).1 i)
      (run programs state schedule).2 := by
  induction schedule generalizing programs state with
  | nil => exact hsafe i
  | cons turn schedule ih =>
    rw [run]
    split
    · next change next hturn =>
      apply ih
      have hstep := hsafe turn
      rw [hturn] at hstep
      obtain ⟨hguar, hnext⟩ := hstep state (hrefl turn state)
      intro j
      by_cases hj : j = turn
      · subst hj
        rw [Function.update_self]
        exact hnext
      · rw [Function.update_of_ne hj]
        exact (hsafe j).of_rely (htrans j) (hother turn j (Ne.symm hj) _ _ hguar)
    · exact ih programs state hsafe

/-- What every guarantee keeps holds after any schedule. -/
theorem inv_run (htrans : ∀ i a b c, relies i a b → relies i b c → relies i a c)
    (hother : ∀ i j, i ≠ j → ∀ a b, guars i a b → relies j a b) (programs : ι → Prog σ α) (state : σ)
    (schedule : List ι) (hrefl : ∀ i a, relies i a a)
    (hsafe : ∀ i, Safe (relies i) (guars i) (posts i) (programs i) state) {inv : σ → Prop}
    (hinv : ∀ i a b, guars i a b → inv a → inv b) (hstate : inv state) :
    inv (run programs state schedule).2 := by
  induction schedule generalizing programs state with
  | nil => exact hstate
  | cons turn schedule ih =>
    have hafter := safe_run htrans hother programs state [turn] hrefl hsafe
    rw [run]
    split
    · next change next hturn =>
      have hstep := hsafe turn
      rw [hturn] at hstep
      have hguar := (hstep state (hrefl turn state)).1
      apply ih _ _ _ (hinv turn _ _ hguar hstate)
      simpa only [run, hturn] using hafter
    · exact ih programs state hsafe hstate

end Run

/-! ## Programs that keep an invariant -/

section Invariant

variable (inv : σ → Prop) (guars : ι → σ → σ → Prop)

/-- A step of a program keeps the invariant and its own guarantee. -/
def Keeps (i : ι) (before after : σ) : Prop := (inv before → inv after) ∧ guars i before after

/-- What the other programs may do. -/
def Others (i : ι) : σ → σ → Prop := Relation.ReflTransGen fun a b ↦ ∃ j, j ≠ i ∧ Keeps inv guars j a b

/-- The other programs leave an assertion as it is. -/
def Holds (i : ι) (P : σ → Prop) : Prop :=
  ∀ j, j ≠ i → ∀ a b, inv a → inv b → guars j a b → P a → P b

/-- A part of program `i` that leads from `P` to `Q`. -/
def Leads (i : ι) (P : σ → Prop) (program : Prog σ α) (Q : α → σ → Prop) : Prop :=
  ∀ state, inv state → P state →
    Safe (Others inv guars i) (Keeps inv guars i) (fun value after ↦ inv after ∧ Q value after) program state

variable {inv guars} {i : ι} {P : σ → Prop} {Q : α → σ → Prop}

theorem Holds.others (hP : Holds inv guars i P) {a b : σ} (hothers : Others inv guars i a b) (ha : inv a)
    (hPa : P a) : inv b ∧ P b := by
  induction hothers with
  | refl => exact ⟨ha, hPa⟩
  | tail _ hstep ih =>
    obtain ⟨j, hj, hkeeps⟩ := hstep
    exact ⟨hkeeps.1 ih.1, hP j hj _ _ ih.1 (hkeeps.1 ih.1) hkeeps.2 ih.2⟩

theorem holds_const (fact : Prop) : Holds inv guars i fun _ ↦ fact := fun _ _ _ _ _ _ _ hfact ↦ hfact

theorem Holds.and {P' : σ → Prop} (hP : Holds inv guars i P) (hP' : Holds inv guars i P') :
    Holds inv guars i fun state ↦ P state ∧ P' state :=
  fun j hj a b ha hb hguar hboth ↦ ⟨hP j hj a b ha hb hguar hboth.1, hP' j hj a b ha hb hguar hboth.2⟩

theorem Leads.pure (value : α) (hP : Holds inv guars i P) (himp : ∀ state, inv state → P state → Q value state) :
    Leads inv guars i P (done value) Q := by
  intro state hstate hPstate after hafter
  obtain ⟨hinv, hPafter⟩ := hP.others hafter hstate hPstate
  exact ⟨hinv, himp after hinv hPafter⟩

theorem Leads.bind {R : β → σ → Prop} {program : Prog σ α} {next : α → Prog σ β}
    (hfirst : Leads inv guars i P program Q) (hnext : ∀ value, Leads inv guars i (Q value) (next value) R) :
    Leads inv guars i P (program.bind next) R := by
  intro state hstate hPstate
  apply Safe.bind fun _ ↦ Relation.ReflTransGen.refl
  apply (hfirst state hstate hPstate).imp
  intro value after hafter
  exact hnext value after hafter.1 hafter.2

theorem Leads.imp {P' : σ → Prop} {Q' : α → σ → Prop} {program : Prog σ α}
    (hleads : Leads inv guars i P program Q) (hpre : ∀ state, inv state → P' state → P state)
    (hpost : ∀ value state, inv state → Q value state → Q' value state) :
    Leads inv guars i P' program Q' := by
  intro state hstate hPstate
  apply (hleads state hstate (hpre state hstate hPstate)).imp
  exact fun value after hafter ↦ ⟨hafter.1, hpost value after hafter.1 hafter.2⟩

theorem Safe.frame {F : σ → Prop} (hF : ∀ j a b, inv a → inv b → guars j a b → F a → F b)
    {post : α → σ → Prop} {program : Prog σ α} {state : σ} (hstate : inv state) (hFstate : F state)
    (hsafe : Safe (Others inv guars i) (Keeps inv guars i) post program state) :
    Safe (Others inv guars i) (Keeps inv guars i) (fun value after ↦ post value after ∧ F after) program state := by
  have hothers : ∀ {a b}, Others inv guars i a b → inv a → F a → inv b ∧ F b :=
    fun hab ↦ Holds.others (fun j _ a b ↦ hF j a b) hab
  induction program generalizing state with
  | done value => exact fun after hafter ↦ ⟨hsafe after hafter, (hothers hafter hstate hFstate).2⟩
  | halt => trivial
  | step change next ih =>
    intro before hbefore
    obtain ⟨hkeeps, hnext⟩ := hsafe before hbefore
    obtain ⟨hinv, hFbefore⟩ := hothers hbefore hstate hFstate
    have hinvAfter := hkeeps.1 hinv
    exact ⟨hkeeps, ih before hinvAfter (hF i before _ hinv hinvAfter hkeeps.2 hFbefore) hnext⟩

/-- What no program changes holds throughout. -/
theorem Leads.frame {F : σ → Prop} (hF : ∀ j a b, inv a → inv b → guars j a b → F a → F b)
    {program : Prog σ α} (hleads : Leads inv guars i P program Q) :
    Leads inv guars i (fun state ↦ P state ∧ F state) program fun value after ↦ Q value after ∧ F after := by
  intro state hstate hboth
  apply (Safe.frame hF hstate hboth.2 (hleads state hstate hboth.1)).imp
  exact fun value after hafter ↦ ⟨hafter.1.1, hafter.1.2, hafter.2⟩

theorem Leads.access {f : σ → α × σ} (hP : Holds inv guars i P) (hQ : ∀ value, Holds inv guars i (Q value))
    (hf : ∀ state, inv state → P state →
      inv (f state).2 ∧ guars i state (f state).2 ∧ Q (f state).1 (f state).2) :
    Leads inv guars i P (access f) Q := by
  intro state hstate hPstate before hbefore
  obtain ⟨hinv, hPbefore⟩ := hP.others hbefore hstate hPstate
  obtain ⟨hkept, hguar, hq⟩ := hf before hinv hPbefore
  refine ⟨⟨fun _ ↦ hkept, hguar⟩, ?_⟩
  intro after hafter
  exact (hQ _).others hafter hkept hq

/-- Once the change was possible, it is made. -/
theorem Leads.acquire {take : σ → Option σ} {R : σ → Prop} (hP : Holds inv guars i P)
    (hR : Holds inv guars i R) (hsame : ∀ state, guars i state state)
    (htake : ∀ state after, inv state → P state → take state = some after →
      inv after ∧ guars i state after ∧ R after) (tries : ℕ) :
    Leads inv guars i P (Prog.acquire take tries) fun _ ↦ R := by
  induction tries with
  | zero => exact fun _ _ _ ↦ trivial
  | succ tries ih =>
    refine Leads.bind (Leads.access (f := fun state ↦ ((take state).isSome, (take state).getD state))
      (Q := fun taken state ↦ if taken then R state else P state) hP ?_ ?_) ?_
    · intro taken
      cases taken with
      | false => exact hP
      | true => exact hR
    · intro state hstate hPstate
      cases htaken : take state with
      | none => exact ⟨hstate, hsame state, hPstate⟩
      | some after => exact htake state after hstate hPstate htaken
    · intro taken
      cases taken with
      | false => exact ih
      | true => exact Leads.pure () hR fun _ _ hafter ↦ hafter

theorem Leads.each (hP : Holds inv guars i P) {body : β → Prog σ Unit} (items : List β)
    (hbody : ∀ item ∈ items, Leads inv guars i P (body item) fun _ ↦ P) :
    Leads inv guars i P (each items body) fun _ ↦ P := by
  induction items with
  | nil => exact Leads.pure () hP fun _ _ hstate ↦ hstate
  | cons item rest ih =>
    exact Leads.bind (hbody item List.mem_cons_self)
      fun _ ↦ ih fun other hother ↦ hbody other (List.mem_cons_of_mem item hother)

/-- Programs that each keep the invariant keep it in every order of their steps. -/
theorem Leads.inv_run [DecidableEq ι] {P : ι → σ → Prop} {programs : ι → Prog σ α} {start : σ}
    (hleads : ∀ i, Leads inv guars i (P i) (programs i) fun _ _ ↦ True) (hstart : inv start)
    (hP : ∀ i, P i start) (schedule : List ι) : inv (run programs start schedule).2 := by
  refine @Prog.inv_run σ α ι _ (Others inv guars) (Keeps inv guars) (fun _ _ after ↦ inv after ∧ True) ?_ ?_
    programs start schedule ?_ ?_ inv ?_ hstart
  · exact fun _ _ _ _ ↦ Relation.ReflTransGen.trans
  · exact fun i j hne a b hguar ↦ Relation.ReflTransGen.single ⟨i, hne, hguar⟩
  · exact fun _ _ ↦ Relation.ReflTransGen.refl
  · exact fun i ↦ hleads i start hstart (hP i)
  · exact fun _ _ _ hguar ↦ hguar.1

end Invariant

end Prog

end Sdrmm
