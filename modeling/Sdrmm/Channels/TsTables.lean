import Sdrmm.Channels.Ts

/-!
# Tables and the streams they announce

Whatever packets come, the streams of the known programs have numbers of 13 bits, as the tables have no more
for them, and a packet leaves the streams alone that it is not of.
-/

namespace Sdrmm.Ts

/-- The streams of a program have numbers of 13 bits. -/
def Program.Narrow (program : Program) : Prop := ∀ stream ∈ program.streams, stream.pid < 0x2000

def NarrowPrograms (programs : SortedMap ℕ Program) : Prop :=
  ∀ entry ∈ programs.entries, entry.2.Narrow

section NarrowPrograms

variable {programs : SortedMap ℕ Program} {program : Program}

theorem NarrowPrograms.insert (hprograms : NarrowPrograms programs) (number : ℕ)
    (hprogram : program.Narrow) : NarrowPrograms (programs.insert number program) := by
  intro entry hentry
  rcases SortedMap.mem_insert.mp hentry with rfl | ⟨hentry, -⟩
  · exact hprogram
  · exact hprograms entry hentry

theorem NarrowPrograms.retain (hprograms : NarrowPrograms programs) (keep : ℕ → Bool) :
    NarrowPrograms (programs.retain keep) :=
  fun entry hentry ↦ hprograms entry (List.mem_of_mem_filter hentry)

theorem NarrowPrograms.get? (hprograms : NarrowPrograms programs) {number : ℕ}
    (hget : programs.get? number = some program) : program.Narrow :=
  hprograms _ (SortedMap.get?_eq_some.mp hget)

theorem NarrowPrograms.getD (hprograms : NarrowPrograms programs) (number : ℕ) :
    ((programs.get? number).getD {}).Narrow := by
  cases hget : programs.get? number with
  | none => exact fun _ hstream ↦ nomatch hstream
  | some program => exact hprograms.get? hget

theorem NarrowPrograms.sdtServices (hprograms : NarrowPrograms programs) (fuel : ℕ)
    (bytes : List UInt8) : NarrowPrograms (TsDemux.sdtServices fuel bytes programs) := by
  fun_induction TsDemux.sdtServices fuel bytes programs with
  | case1 fuel high low _ lengthHigh lengthLow rest programs length hcut => exact hprograms
  | case2 fuel high low _ lengthHigh lengthLow rest programs length hfits ih =>
    apply ih
    split
    · next provider name program _ hget =>
      have hprogram : program.Narrow := hprograms.get? hget
      exact hprograms.insert _ hprogram
    · exact hprograms
  | case3 => exact hprograms

end NarrowPrograms

theorem be16_masked_lt (high low : UInt8) : be16 (high &&& 0x1F) low < 0x2000 := by
  have hhigh : (high &&& 0x1F).toNat < 32 := by
    rw [UInt8.toNat_and]
    exact Nat.lt_of_le_of_lt Nat.and_le_right (by decide)
  have hlow := low.toNat_lt
  rw [be16]
  omega

theorem narrow_pmtStreams (fuel : ℕ) (bytes : List UInt8) :
    ∀ stream ∈ TsDemux.pmtStreams fuel bytes, stream.pid < 0x2000 := by
  fun_induction TsDemux.pmtStreams fuel bytes with
  | case1 => exact fun _ hstream ↦ nomatch hstream
  | case2 fuel kind high low lengthHigh lengthLow rest length hfits descriptors given ih =>
    intro stream hstream
    rcases List.mem_cons.mp hstream with rfl | hstream
    · exact be16_masked_lt high low
    · exact ih stream hstream
  | case3 => exact fun _ hstream ↦ nomatch hstream

namespace TsDemux

/-- From `demux` to `after`, nothing came on the stream. -/
structure Apart (pid : ℕ) (demux after : TsDemux) : Prop where
  continuity : after.continuity pid = demux.continuity pid
  pes : after.pes pid = demux.pes pid
  narrow : NarrowPrograms demux.programs → NarrowPrograms after.programs

section Apart

variable {pid other : ℕ} {demux middle after : TsDemux}

theorem Apart.refl (pid : ℕ) (demux : TsDemux) : Apart pid demux demux := ⟨rfl, rfl, id⟩

theorem Apart.trans (hfirst : Apart pid demux middle) (hsecond : Apart pid middle after) :
    Apart pid demux after where
  continuity := hsecond.continuity.trans hfirst.continuity
  pes := hsecond.pes.trans hfirst.pes
  narrow := hsecond.narrow ∘ hfirst.narrow

theorem apart_foldl {α : Type} (step : TsDemux → α → TsDemux)
    (hstep : ∀ demux item, Apart pid demux (step demux item)) (items : List α) (demux : TsDemux) :
    Apart pid demux (items.foldl step demux) := by
  induction items generalizing demux with
  | nil => exact .refl pid demux
  | cons item items ih => exact (hstep demux item).trans (ih (step demux item))

theorem apart_announce (pid : ℕ) (demux : TsDemux) (listed : ℕ × ℕ) :
    Apart pid demux (demux.announce listed) :=
  ⟨rfl, rfl, fun hnarrow ↦ hnarrow.insert listed.1 (hnarrow.getD listed.1)⟩

theorem apart_applyPat (pid : ℕ) (demux : TsDemux) (bytes : List UInt8) :
    Apart pid demux (demux.applyPat bytes) := by
  unfold applyPat
  split
  · exact .refl pid demux
  · dsimp only
    have hclear : Apart pid demux { demux with pmtPids := .empty } := ⟨rfl, rfl, id⟩
    have hlisted (listed : List (ℕ × ℕ)) :=
      hclear.trans (apart_foldl announce (apart_announce pid) listed _)
    exact ⟨(hlisted _).continuity, (hlisted _).pes, fun hnarrow ↦ ((hlisted _).narrow hnarrow).retain _⟩

theorem apart_applyPmt (pid : ℕ) (demux : TsDemux) (table : ℕ) (bytes : List UInt8) :
    Apart pid demux (demux.applyPmt table bytes) := by
  unfold applyPmt
  split
  · exact .refl pid demux
  · next number hnumber =>
    split
    · exact .refl pid demux
    · exact ⟨rfl, rfl, fun hnarrow ↦ hnarrow.insert number (narrow_pmtStreams _ _)⟩

theorem apart_applySdt (pid : ℕ) (demux : TsDemux) (bytes : List UInt8) :
    Apart pid demux (demux.applySdt bytes) := by
  unfold applySdt
  split
  · exact .refl pid demux
  · exact ⟨rfl, rfl, fun hnarrow ↦ hnarrow.sdtServices _ _⟩

theorem apart_applySection (pid : ℕ) (demux : TsDemux) (table : ℕ) (bytes : List UInt8) :
    Apart pid demux (demux.applySection table bytes) := by
  unfold applySection
  dsimp only
  split
  · exact apart_applyPat pid demux bytes
  · split
    · exact apart_applySdt pid demux bytes
    · split
      · exact apart_applyPmt pid demux table bytes
      · exact .refl pid demux

theorem apart_pushSection (pid : ℕ) (demux : TsDemux) (table : ℕ) (payload : List UInt8) (start : Bool) :
    Apart pid demux (demux.pushSection table payload start) := by
  have hbuffer : ∀ buffer, Apart pid demux (demux.setSection table buffer) := fun _ ↦ ⟨rfl, rfl, id⟩
  exact (hbuffer _).trans (apart_foldl _ (fun demux bytes ↦ apart_applySection pid demux table bytes) _ _)

theorem apart_setContinuity (hother : pid ≠ other) (demux : TsDemux) (seen : Option (UInt8 × UInt32)) :
    Apart pid demux (demux.setContinuity other seen) :=
  ⟨Function.update_of_ne hother _ _, rfl, id⟩

theorem apart_forget (hother : pid ≠ other) (demux : TsDemux) : Apart pid demux (demux.forget other) :=
  ⟨rfl, Function.update_of_ne hother _ _, id⟩

theorem apart_counters (pid : ℕ) (demux : TsDemux) (dropped scrambled discontinuities packets : ℕ) :
    Apart pid demux { demux with
      dropped := dropped, scrambled := scrambled, discontinuities := discontinuities, packets := packets } :=
  ⟨rfl, rfl, id⟩

theorem apart_dropPid (hother : pid ≠ other) (demux : TsDemux) :
    Apart pid demux (demux.dropPid other) := by
  apply ((apart_forget hother demux).trans (apart_setContinuity hother _ none)).trans
  exact apart_counters pid _ _ _ _ _

theorem apart_route (hother : pid ≠ other) (demux : TsDemux) (payload : List UInt8) (start : Bool) :
    Apart pid demux (demux.route other payload start).1 := by
  unfold route
  split
  · exact apart_pushSection pid demux other payload start
  · split
    · exact ⟨rfl, Function.update_of_ne hother _ _, id⟩
    · exact .refl pid demux

theorem apart_take (hother : pid ≠ other) (demux : TsDemux) (offset : ℕ) (bytes : List UInt8) :
    Apart pid demux (demux.take other offset bytes).1 := by
  have hseen := apart_setContinuity hother demux (some (bytes.getD 3 0 &&& 15, Dsp.crc32Mpeg bytes))
  unfold take
  dsimp only
  split
  · exact hseen
  · split
    · apply (hseen.trans (apart_forget hother _)).trans
      exact (apart_counters pid _ _ _ _ _).trans (apart_route hother _ _ _)
    · exact hseen.trans (apart_route hother _ _ _)

/-- A packet of another stream. -/
theorem apart_push (demux : TsDemux) {bytes : List UInt8} (hother : pid ≠ pidOf bytes) :
    Apart pid demux (demux.push bytes).1 := by
  have hcounted : Apart pid demux { demux with packets := demux.packets + 1 } := ⟨rfl, rfl, id⟩
  have hrestart : Apart pid demux
      (if restarts bytes then
        ({ demux with packets := demux.packets + 1 }.forget (pidOf bytes)).setContinuity (pidOf bytes) none
      else { demux with packets := demux.packets + 1 }) := by
    split
    · exact (hcounted.trans (apart_forget hother _)).trans (apart_setContinuity hother _ none)
    · exact hcounted
  unfold push
  dsimp only
  split
  · exact ⟨rfl, rfl, id⟩
  split
  · exact .refl pid demux
  split
  · exact hcounted.trans (apart_dropPid hother _)
  split
  · exact hcounted.trans (apart_dropPid hother _)
  next offset hoffset =>
  apply hrestart.trans
  generalize (if restarts bytes then
    ({ demux with packets := demux.packets + 1 }.forget (pidOf bytes)).setContinuity (pidOf bytes) none
    else { demux with packets := demux.packets + 1 }) = demux
  split
  · exact .refl pid demux
  split
  · exact (apart_counters pid _ _ _ _ _).trans (apart_dropPid hother _)
  split
  · exact apart_dropPid hother demux
  · exact apart_take hother demux offset bytes

/-- Packets of other streams. -/
theorem apart_run (demux : TsDemux) (received : List (List UInt8))
    (hother : ∀ bytes ∈ received, pid ≠ pidOf bytes) : Apart pid demux (demux.run received).1 := by
  induction received generalizing demux with
  | nil => exact .refl pid demux
  | cons bytes rest ih =>
    exact (apart_push demux (hother bytes List.mem_cons_self)).trans
      (ih _ fun bytes hbytes ↦ hother bytes (List.mem_cons_of_mem _ hbytes))

end Apart

/-- The streams of the program that is selected have numbers of 13 bits. -/
theorem pid_lt_of_isSelectedStream {demux : TsDemux} {pid : ℕ} (hnarrow : NarrowPrograms demux.programs)
    (hselected : demux.isSelectedStream pid = true) : pid < 0x2000 := by
  rw [isSelectedStream, Option.any_eq_true] at hselected
  obtain ⟨program, hprogram, hstream⟩ := hselected
  rw [List.any_eq_true] at hstream
  obtain ⟨stream, hstream, hpid⟩ := hstream
  rw [← beq_iff_eq.mp hpid]
  rw [TsDemux.program] at hprogram
  split at hprogram
  · exact hnarrow.get? hprogram stream hstream
  · obtain ⟨entry, hentry, rfl⟩ := List.mem_map.mp (List.mem_of_find?_eq_some hprogram)
    exact hnarrow entry hentry stream hstream

end TsDemux

end Sdrmm.Ts
