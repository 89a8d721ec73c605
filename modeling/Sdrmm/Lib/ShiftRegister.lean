import Mathlib.Dynamics.PeriodicPts.Lemmas
import Mathlib.Tactic

/-!
# Feedback shift registers

A register of `width` bits that is shifted up and takes in a bit of feedback at each step.  As many
bits as the register is wide are all that there is to know about it, so the sequence of bits looks the
same from two places exactly if these are a multiple of the period apart.
-/

open Function

namespace Sdrmm.ShiftRegister

/-! ## Periods -/

theorem minimalPeriod_eq_of_prime_div {α : Type*} {f : α → α} {x : α} {n : ℕ}
    (hperiodic : IsPeriodicPt f n x)
    (hprime : ∀ p, p.Prime → p ∣ n → ¬IsPeriodicPt f (n / p) x) : minimalPeriod f x = n := by
  obtain ⟨k, hk⟩ := hperiodic.minimalPeriod_dvd
  by_contra hne
  have hk_one : k ≠ 1 := by
    rintro rfl
    rw [mul_one] at hk
    exact hne hk.symm
  obtain ⟨p, hp, j, rfl⟩ := Nat.exists_prime_and_dvd hk_one
  apply hprime p hp ⟨minimalPeriod f x * j, by rw [hk]; ring⟩
  have hdiv : n / p = minimalPeriod f x * j := by
    rw [hk, show minimalPeriod f x * (p * j) = minimalPeriod f x * j * p by ring,
      Nat.mul_div_cancel _ hp.pos]
  rw [hdiv]
  exact (isPeriodicPt_minimalPeriod f x).mul_const j

theorem minimalPeriod_eq_of_factors {α : Type*} {f : α → α} {x : α} (factors : List ℕ)
    (hprimes : ∀ q ∈ factors, q.Prime) (hperiodic : IsPeriodicPt f factors.prod x)
    (hshorter : ∀ q ∈ factors, ¬IsPeriodicPt f (factors.prod / q) x) :
    minimalPeriod f x = factors.prod := by
  apply minimalPeriod_eq_of_prime_div hperiodic
  intro p hp hdvd
  obtain ⟨q, hq, hpq⟩ := (hp.prime.dvd_prod_iff).mp hdvd
  rw [(Nat.prime_dvd_prime_iff_eq hp (hprimes q hq)).mp hpq]
  exact hshorter q hq

/-- The iterates of a map from a number on, as long as they do not reach zero; the test makes each
iterate a number before the next. -/
def run (f : ℕ → ℕ) : ℕ → ℕ → ℕ
  | 0, x => x
  | n + 1, x => if x = 0 then 0 else run f n (f x)

theorem run_eq {f : ℕ → ℕ} (hzero : f 0 = 0) (n x : ℕ) : run f n x = f^[n] x := by
  induction n generalizing x with
  | zero => rfl
  | succ n ih =>
    rw [run, iterate_succ_apply, ih]
    split_ifs with hx
    · rw [hx, hzero, iterate_fixed hzero]
    · rfl

theorem iterate_eq_iff_modEq {α : Type*} {f : α → α} {x : α} (hpos : 0 < minimalPeriod f x)
    (a b : ℕ) : f^[a] x = f^[b] x ↔ a ≡ b [MOD minimalPeriod f x] := by
  rw [← iterate_mod_minimalPeriod_eq, ← @iterate_mod_minimalPeriod_eq _ f x b,
    iterate_eq_iterate_iff_of_lt_minimalPeriod (Nat.mod_lt _ hpos) (Nat.mod_lt _ hpos)]
  rfl

/-! ## Registers -/

variable (width : ℕ) (feedback : ℕ → Bool)

def step (word : ℕ) : ℕ := (2 * word + (feedback word).toNat) % 2 ^ width

/-- The bit taken in after `n` steps. -/
def bit (word n : ℕ) : Bool := feedback ((step width feedback)^[n] word)

variable {width} {feedback}

theorem step_lt (word : ℕ) : step width feedback word < 2 ^ width := Nat.mod_lt _ (Nat.two_pow_pos _)

theorem iterate_lt {word : ℕ} (hword : word < 2 ^ width) (n : ℕ) :
    (step width feedback)^[n] word < 2 ^ width := by
  cases n with
  | zero => exact hword
  | succ n =>
    rw [iterate_succ_apply']
    exact step_lt _

/-- The lowest bits of a register are the last ones it took in. -/
theorem iterate_mod_eq {a b n : ℕ} (hn : n ≤ width)
    (hbits : ∀ i < n, bit width feedback a i = bit width feedback b i) :
    (step width feedback)^[n] a % 2 ^ n = (step width feedback)^[n] b % 2 ^ n := by
  induction n with
  | zero => rw [pow_zero, Nat.mod_one, Nat.mod_one]
  | succ n ih =>
    have hlow := ih (by omega) fun i hi ↦ hbits i (by omega)
    have hbit : feedback ((step width feedback)^[n] a) = feedback ((step width feedback)^[n] b) :=
      hbits n (by omega)
    have hshift : ∀ word : ℕ, step width feedback word % 2 ^ (n + 1) =
        (2 * (word % 2 ^ n) + (feedback word).toNat) % 2 ^ (n + 1) := by
      intro word
      have hsplit : 2 * word + (feedback word).toNat =
          2 * (word % 2 ^ n) + (feedback word).toNat + 2 ^ (n + 1) * (word / 2 ^ n) := by
        rw [pow_succ']
        linarith [Nat.mod_add_div word (2 ^ n)]
      rw [step, Nat.mod_mod_of_dvd _ (pow_dvd_pow 2 hn), hsplit, Nat.add_mul_mod_self_left]
    rw [iterate_succ_apply', iterate_succ_apply', hshift, hshift, hlow, hbit]

theorem iterate_width_eq {a b : ℕ} (ha : a < 2 ^ width) (hb : b < 2 ^ width)
    (hbits : ∀ i < width, bit width feedback a i = bit width feedback b i) :
    (step width feedback)^[width] a = (step width feedback)^[width] b := by
  have hlow := iterate_mod_eq le_rfl hbits
  rwa [Nat.mod_eq_of_lt (iterate_lt ha _), Nat.mod_eq_of_lt (iterate_lt hb _)] at hlow

theorem bit_iterate (word m n : ℕ) :
    bit width feedback ((step width feedback)^[m] word) n = bit width feedback word (m + n) := by
  rw [bit, bit, ← iterate_add_apply, add_comm]

/-- A window that is at least as wide as the register tells where in the period it lies. -/
theorem window_eq_iff {seed : ℕ} (hseed : seed < 2 ^ width)
    (hpos : 0 < minimalPeriod (step width feedback) seed) {window : ℕ} (hwindow : width ≤ window)
    (a b : ℕ) :
    (∀ i < window, bit width feedback seed (a + i) = bit width feedback seed (b + i)) ↔
      a ≡ b [MOD minimalPeriod (step width feedback) seed] := by
  rw [← iterate_eq_iff_modEq hpos]
  constructor
  · intro hbits
    have hsame := iterate_width_eq (iterate_lt hseed a) (iterate_lt hseed b) fun i hi ↦ by
      rw [bit_iterate, bit_iterate]
      exact hbits i (by omega)
    rw [← iterate_add_apply, ← iterate_add_apply, iterate_eq_iff_modEq hpos] at hsame
    rw [iterate_eq_iff_modEq hpos]
    exact Nat.ModEq.add_left_cancel' _ hsame
  · intro hsame i _
    rw [← bit_iterate, ← bit_iterate, hsame]

end Sdrmm.ShiftRegister
