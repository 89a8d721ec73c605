import Sdrmm.Lib.Bits

/-!
# The self-synchronising scrambler

`Scrambler` and `Descrambler` of `dsp/src/bits.rs`.  Both shift the bits of the channel into their
register, so the registers agree on as many bits as have gone over the channel, and a descrambler
whose taps reach no further back than that returns the bits that were scrambled.  A flipped channel
bit reaches the output once by itself and once through each tap.
-/

namespace Sdrmm.SelfSync

open Bits

/-- Tap exponents; their range is the assertion of `taps_mask`. -/
structure Taps where
  exponents : List ℕ
  inRange : ∀ k ∈ exponents, 1 ≤ k ∧ k ≤ 32

def tapsMask (taps : Taps) : ℕ := taps.exponents.foldl (fun mask k ↦ mask ||| 1 <<< (k - 1)) 0

def feedback (reg taps : ℕ) : Bool := countOnes 32 (reg &&& taps) % 2 == 1

/-- `reg << 1 | bit` on 32 bits. -/
def shiftIn (reg : ℕ) (bit : Bool) : ℕ := (reg <<< 1 ||| bit.toNat) % 2 ^ 32

structure Descrambler where
  reg : ℕ
  taps : ℕ

structure Scrambler where
  reg : ℕ
  taps : ℕ

namespace Descrambler

def new (taps : Taps) : Descrambler where
  reg := 0
  taps := tapsMask taps

def push (d : Descrambler) (bit : Bool) : Descrambler × Bool :=
  ({ d with reg := shiftIn d.reg bit }, bit ^^ feedback d.reg d.taps)

/-- The outputs for a stream of bits. -/
def feed (d : Descrambler) : List Bool → List Bool
  | [] => []
  | bit :: bits => (d.push bit).2 :: (d.push bit).1.feed bits

end Descrambler

namespace Scrambler

def new (taps : Taps) : Scrambler where
  reg := 0
  taps := tapsMask taps

def push (s : Scrambler) (bit : Bool) : Scrambler × Bool :=
  let out := bit ^^ feedback s.reg s.taps
  ({ s with reg := shiftIn s.reg out }, out)

def feed (s : Scrambler) : List Bool → List Bool
  | [] => []
  | bit :: bits => (s.push bit).2 :: (s.push bit).1.feed bits

end Scrambler

/-! ## The register -/

theorem testBit_shiftIn (reg : ℕ) (bit : Bool) (i : ℕ) : (shiftIn reg bit).testBit i =
    (decide (i < 32) && if i = 0 then bit else reg.testBit (i - 1)) := by
  rw [shiftIn, Nat.testBit_mod_two_pow, Nat.testBit_or, Nat.testBit_shiftLeft]
  cases i with
  | zero => cases bit <;> simp
  | succ i =>
    have hbit : bit.toNat.testBit (i + 1) = false := by
      rw [Nat.testBit_succ]
      cases bit <;> exact Nat.zero_testBit i
    rw [hbit, Bool.or_false, if_neg (Nat.succ_ne_zero i)]
    simp

theorem testBit_tapsMask (taps : Taps) (i : ℕ) :
    (tapsMask taps).testBit i = decide (i + 1 ∈ taps.exponents) := by
  have hfold (exponents : List ℕ) (hrange : ∀ k ∈ exponents, 1 ≤ k) (mask : ℕ) :
      (exponents.foldl (fun mask k ↦ mask ||| 1 <<< (k - 1)) mask).testBit i =
        (mask.testBit i || decide (i + 1 ∈ exponents)) := by
    induction exponents generalizing mask with
    | nil => simp
    | cons k exponents ih =>
      have hk := hrange k List.mem_cons_self
      have hbit : (1 <<< (k - 1)).testBit i = decide (i + 1 = k) := by
        rw [Nat.one_shiftLeft, Nat.testBit_two_pow, decide_eq_decide]
        omega
      rw [List.foldl_cons, ih (fun j hj ↦ hrange j (List.mem_cons_of_mem k hj)), Nat.testBit_or,
        hbit, Bool.or_assoc, ← Bool.decide_or]
      simp only [List.mem_cons]
  have hmask := hfold taps.exponents (fun k hk ↦ (taps.inRange k hk).1) 0
  rw [Nat.zero_testBit, Bool.false_or] at hmask
  exact hmask

/-- The feedback is the exclusive or of the register bits at the taps. -/
theorem feedback_eq (reg : ℕ) (taps : Taps) :
    feedback reg (tapsMask taps) =
      xorAll taps.exponents.dedup fun k ↦ reg.testBit (k - 1) := by
  have hperm : (((List.range 32).filter fun i ↦ decide (i + 1 ∈ taps.exponents)).map (· + 1)).Perm
      taps.exponents.dedup := by
    refine (List.perm_ext_iff_of_nodup ?_ (List.nodup_dedup _)).mpr ?_
    · exact (List.nodup_range.filter _).map (add_left_injective 1)
    · intro k
      rw [List.mem_dedup, List.mem_map]
      constructor
      · rintro ⟨i, hi, rfl⟩
        exact of_decide_eq_true (List.mem_filter.mp hi).2
      · intro hk
        obtain ⟨hlow, hhigh⟩ := taps.inRange k hk
        have hback : k - 1 + 1 = k := Nat.sub_add_cancel hlow
        refine ⟨k - 1, List.mem_filter.mpr ⟨List.mem_range.mpr (by omega), ?_⟩, hback⟩
        rw [hback]
        exact decide_eq_true hk
  rw [feedback, countOnes_parity, ← xorAll_perm hperm, xorAll_map, xorAll_filter]
  apply xorAll_congr
  intro i _
  rw [Nat.testBit_and, testBit_tapsMask, Bool.and_comm, Nat.add_sub_cancel]

/-! ## Synchronisation -/

/-- Registers that agree on their first `count` bits. -/
def Agree (count sent received : ℕ) : Prop :=
  ∀ i < count, sent.testBit i = received.testBit i

theorem Agree.shiftIn {count sent received : ℕ} (hagree : Agree count sent received) (bit : Bool) :
    Agree (count + 1) (shiftIn sent bit) (shiftIn received bit) := by
  intro i hi
  rw [testBit_shiftIn, testBit_shiftIn]
  congr 1
  cases i with
  | zero => rfl
  | succ i => exact hagree i (by omega)

theorem Agree.feedback_eq {count sent received : ℕ} (hagree : Agree count sent received) {taps : Taps}
    (hreach : ∀ k ∈ taps.exponents, k ≤ count) :
    feedback sent (tapsMask taps) = feedback received (tapsMask taps) := by
  rw [SelfSync.feedback_eq, SelfSync.feedback_eq]
  apply xorAll_congr
  intro k hk
  rw [List.mem_dedup] at hk
  have hlow := (taps.inRange k hk).1
  have hreached := hreach k hk
  exact hagree (k - 1) (by omega)

theorem descramble_of_agree (taps : Taps) {count sent received : ℕ}
    (hagree : Agree count sent received) (data : List Bool) (n : ℕ)
    (hreach : ∀ k ∈ taps.exponents, k ≤ count + n) :
    (Descrambler.feed ⟨received, tapsMask taps⟩ (Scrambler.feed ⟨sent, tapsMask taps⟩ data))[n]? =
      data[n]? := by
  induction data generalizing count sent received n with
  | nil => rfl
  | cons bit data ih =>
    rw [Scrambler.feed, Descrambler.feed]
    cases n with
    | zero =>
      simp only [List.getElem?_cons_zero, Scrambler.push, Descrambler.push,
        hagree.feedback_eq hreach, Bool.xor_assoc, Bool.xor_self, Bool.xor_false]
    | succ n =>
      rw [List.getElem?_cons_succ, List.getElem?_cons_succ]
      exact ih (hagree.shiftIn _) n fun k hk ↦ by
        have := hreach k hk
        omega

/-! ## Channel errors -/

/-- The flips that reach output `n`: its own and, through each tap, an earlier one. -/
def reaching (taps : Taps) (flipped : ℕ → Bool) (n : ℕ) : Bool :=
  xorAll (0 :: taps.exponents.dedup) fun k ↦ decide (k ≤ n) && flipped (n - k)

/-- The registers of a descrambler after `count` bits with and without flips. -/
def Flipped (flipped : ℕ → Bool) (count clean dirty : ℕ) : Prop :=
  ∀ i < 32, dirty.testBit i =
    (clean.testBit i ^^ (decide (i < count) && flipped (count - 1 - i)))

theorem Flipped.shiftIn {flipped : ℕ → Bool} {count clean dirty : ℕ}
    (hflipped : Flipped flipped count clean dirty) (bit : Bool) :
    Flipped flipped (count + 1) (shiftIn clean bit) (shiftIn dirty (bit ^^ flipped count)) := by
  intro i hi
  rw [testBit_shiftIn, testBit_shiftIn, decide_eq_true hi, Bool.true_and, Bool.true_and]
  cases i with
  | zero => simp
  | succ i =>
    rw [if_neg (Nat.succ_ne_zero i), if_neg (Nat.succ_ne_zero i), Nat.add_sub_cancel,
      hflipped i (by omega)]
    congr 2
    · rw [decide_eq_decide]
      omega
    · congr 1
      omega

theorem Flipped.feedback_eq {flipped : ℕ → Bool} {count clean dirty : ℕ}
    (hflipped : Flipped flipped count clean dirty) (taps : Taps) :
    (flipped count ^^ feedback dirty (tapsMask taps)) =
      (feedback clean (tapsMask taps) ^^ reaching taps flipped count) := by
  have hbits : feedback dirty (tapsMask taps) = (feedback clean (tapsMask taps) ^^
      xorAll taps.exponents.dedup fun k ↦ decide (k ≤ count) && flipped (count - k)) := by
    rw [SelfSync.feedback_eq, SelfSync.feedback_eq, ← xorAll_xor]
    apply xorAll_congr
    intro k hk
    obtain ⟨hlow, hhigh⟩ := taps.inRange k (List.mem_dedup.mp hk)
    rw [hflipped (k - 1) (by omega)]
    congr 2
    · rw [decide_eq_decide]
      omega
    · congr 1
      omega
  rw [hbits, reaching, xorAll_cons, decide_eq_true (Nat.zero_le count), Nat.sub_zero]
  cases flipped count <;> simp

theorem descramble_flipped (taps : Taps) (flipped : ℕ → Bool) {count clean dirty : ℕ}
    (hflipped : Flipped flipped count clean dirty) (channel : List Bool) :
    Descrambler.feed ⟨dirty, tapsMask taps⟩
        (channel.mapIdx fun i bit ↦ bit ^^ flipped (count + i)) =
      (Descrambler.feed ⟨clean, tapsMask taps⟩ channel).mapIdx
        fun i out ↦ out ^^ reaching taps flipped (count + i) := by
  induction channel generalizing count clean dirty with
  | nil => rfl
  | cons bit channel ih =>
    have hhere := hflipped.feedback_eq taps
    have hshift : (fun i bit ↦ bit ^^ flipped (count + (i + 1))) =
        fun i bit ↦ bit ^^ flipped (count + 1 + i) := by
      funext i bit
      rw [Nat.add_right_comm, Nat.add_assoc]
    have hreach : (fun i out ↦ out ^^ reaching taps flipped (count + (i + 1))) =
        fun i out ↦ out ^^ reaching taps flipped (count + 1 + i) := by
      funext i out
      rw [Nat.add_right_comm, Nat.add_assoc]
    rw [List.mapIdx_cons, Descrambler.feed, Descrambler.feed, List.mapIdx_cons, hshift, hreach,
      Nat.add_zero]
    simp only [Descrambler.push]
    rw [ih (hflipped.shiftIn bit), Bool.xor_assoc, hhere, Bool.xor_assoc]

/-- A descrambler with any register returns what was scrambled as soon as as many bits have gone over
the channel as its taps reach back, from the first bit on when the registers start equal, and adds
to it the channel's flips and their copies delayed by each tap. -/
theorem descrambler_follows (taps : Taps) (sent received : ℕ) (data channel : List Bool)
    (flipped : ℕ → Bool) :
    (∀ n, taps.exponents.foldr max 0 ≤ n →
      (Descrambler.feed ⟨received, tapsMask taps⟩
        (Scrambler.feed ⟨sent, tapsMask taps⟩ data))[n]? = data[n]?) ∧
    (sent = received →
      Descrambler.feed ⟨received, tapsMask taps⟩ (Scrambler.feed ⟨sent, tapsMask taps⟩ data) =
        data) ∧
    Descrambler.feed ⟨received, tapsMask taps⟩ (channel.mapIdx fun i bit ↦ bit ^^ flipped i) =
      (Descrambler.feed ⟨received, tapsMask taps⟩ channel).mapIdx
        fun i out ↦ out ^^ reaching taps flipped i := by
  refine ⟨?_, ?_, ?_⟩
  · intro n hn
    have hagree : Agree 0 sent received := fun i hi ↦ absurd hi (Nat.not_lt_zero i)
    refine descramble_of_agree taps hagree data n ?_
    intro k hk
    have hmax : k ≤ taps.exponents.foldr max 0 := List.le_max_of_le' 0 hk (le_refl k)
    omega
  · rintro rfl
    refine List.ext_getElem? ?_
    intro n
    have hagree : Agree 32 sent sent := fun _ _ ↦ rfl
    refine descramble_of_agree taps hagree data n ?_
    intro k hk
    have := (taps.inRange k hk).2
    omega
  · have hstart : Flipped flipped 0 received received := by
      intro i _
      simp
    have hflipped := descramble_flipped taps flipped hstart channel
    simp only [Nat.zero_add] at hflipped
    exact hflipped

/-- The taps of `g3ruh`. -/
def g3ruh : Taps where
  exponents := [17, 12]
  inRange := by decide

theorem descrambler_follows_g3ruh :
    17 ≤ 18 ∧ (Descrambler.feed ⟨5, tapsMask g3ruh⟩
        (Scrambler.feed ⟨0, tapsMask g3ruh⟩ (List.replicate 19 true)))[18]? = some true :=
  ⟨by decide, (descrambler_follows g3ruh 0 5 (List.replicate 19 true) [] fun _ ↦ false).1 18 (by decide)⟩

end Sdrmm.SelfSync
