import Sdrmm.Dsp.Prbs
import Sdrmm.Dsp.Rs256Errata

/-!
# The outer chain of DVB-S

Energy dispersal and its removal after Reed-Solomon decoding, from `channels/src/datv/dvbs.rs`.  The
sender starts its generator anew with every eighth packet and marks that packet by an inverted sync
byte.  The receiver does the same when it decodes an inverted sync byte, but it moves its generator on
only for codewords that were decoded.  `delivers_iff` is that it delivers what was sent exactly if it
is in step for every codeword that it decodes.
-/

namespace Sdrmm.Dvbs

open Rs256

def packetLen : ℕ := 188
def codewordLen : ℕ := 204
def sync : UInt8 := 0x47
def invertedSync : UInt8 := 0xB8
def group : ℕ := 8

/-! ## Sending -/

structure Dispersal where
  prbs : Prbs
  packets : ℕ

namespace Dispersal

def new : Dispersal := ⟨Prbs.new dvbDispersal, 0⟩

def scramble (dispersal : Dispersal) (packet : List UInt8) : Dispersal × List UInt8 :=
  let start :=
    if dispersal.packets = 0 then (invertedSync, dispersal.prbs.reset)
    else (sync, dispersal.prbs.skipBytes 1)
  let applied := start.2.applyBytes (packet.drop 1)
  (⟨applied.2, (dispersal.packets + 1) % group⟩, start.1 :: applied.1)

end Dispersal

def reedSolomon : ReedSolomon := .new dvbPrimitive 0 16

/-- A packet of a transport stream. -/
structure TransportPacket where
  bytes : List UInt8
  length_eq : bytes.length = packetLen
  head_eq : bytes.head? = some sync

/-- The codewords of a transport stream. -/
def transmit : Dispersal → List TransportPacket → List (List UInt8)
  | _, [] => []
  | dispersal, packet :: packets =>
      let scrambled := dispersal.scramble packet.bytes
      reedSolomon.encode scrambled.2 [] :: transmit scrambled.1 packets

/-! ## Receiving -/

structure Derandomizer where
  prbs : Prbs
  started : Bool

namespace Derandomizer

def new : Derandomizer := ⟨Prbs.new dvbDispersal, false⟩

/-- The packet, unless the derandomizer has not seen an inverted sync byte yet. -/
def apply (derandomizer : Derandomizer) (packet : List UInt8) :
    Derandomizer × Option (List UInt8) :=
  if packet.getD 0 0 = invertedSync then
    let applied := derandomizer.prbs.reset.applyBytes (packet.drop 1)
    (⟨applied.2, true⟩, some (sync :: applied.1))
  else if derandomizer.started then
    let applied := (derandomizer.prbs.skipBytes 1).applyBytes (packet.drop 1)
    (⟨applied.2, true⟩, some (sync :: applied.1))
  else (derandomizer, none)

end Derandomizer

structure DvbsMetrics where
  packetsOk : ℕ := 0
  packetsBad : ℕ := 0
  correctedSymbols : ℕ := 0

/-- What finishing a codeword reads and changes of the decoder. -/
structure DvbsDecoder where
  derandomizer : Derandomizer := .new
  metrics : DvbsMetrics := {}
  losses : ℕ := 0

namespace DvbsDecoder

def finishCodeword (decoder : DvbsDecoder) (codeword : List UInt8) :
    DvbsDecoder × Option (List UInt8) :=
  match reedSolomon.decode codeword with
  | (some corrected, codeword) =>
      let applied := decoder.derandomizer.apply (codeword.take packetLen)
      ({ derandomizer := applied.1
         metrics := { decoder.metrics with
           packetsOk := decoder.metrics.packetsOk + 1
           correctedSymbols := decoder.metrics.correctedSymbols + corrected }
         losses := 0 }, applied.2)
  | (none, _) =>
      ({ decoder with
         metrics := { decoder.metrics with packetsBad := decoder.metrics.packetsBad + 1 }
         losses := decoder.losses + 1 }, none)

/-- The packet that is put out for each codeword, if one is. -/
def receive : DvbsDecoder → List (List UInt8) → List (Option (List UInt8))
  | _, [] => []
  | decoder, codeword :: codewords =>
      let finished := decoder.finishCodeword codeword
      finished.2 :: receive finished.1 codewords

end DvbsDecoder

/-! ## The property and its condition -/

/-- A received codeword that is within the distance of the code, or that decoding gives up on. -/
def Corrupted (sent received : List UInt8) : Prop :=
  received.length = codewordLen ∧
    ((errorIndices sent received []).length ≤ 8 ∨ (reedSolomon.decode received).1 = none)

/-- Every packet put out is the one sent in its place. -/
def Delivered (packets : List TransportPacket) (outputs : List (Option (List UInt8))) : Prop :=
  ∀ (i : ℕ) (output : List UInt8), outputs[i]? = some (some output) →
    (packets[i]?).map TransportPacket.bytes = some output

/-- Whether decoding takes a codeword. -/
def decodable (received : List UInt8) : Bool := (reedSolomon.decode received).1.isSome

/-- The number of bits after which the generator repeats. -/
def period : ℕ := 32767

/-- Every codeword that is decoded after an inverted sync byte was is in step: as many codewords were
decoded since then as its place in the group says, up to the period of the generator.  `since` is that
number before the codewords at `position`. -/
def InStep : Option ℕ → ℕ → List Bool → Prop
  | _, _, [] => True
  | since, position, false :: decoded => InStep since (position + 1) decoded
  | since, position, true :: decoded =>
      let since := if position % group = 0 then some 0 else since.map (· + 1)
      (∀ n ∈ since, n ≡ position % group [MOD period]) ∧ InStep since (position + 1) decoded

/-! ## Dispersal -/

/-- The generator is `count` bytes past its start. -/
def afterBytes (count : ℕ) : Prbs := Prbs.afterBits dvbDispersal (8 * count)

/-- Bytes with a stretch of the sequence added to them. -/
def dispersed (start : ℕ) (data : List UInt8) : List UInt8 :=
  List.zipWith (· ^^^ ·) data (Prbs.keyBytes dvbDispersal start data.length)

theorem applyBytes_afterBytes (start : ℕ) (data : List UInt8) :
    (afterBytes start).applyBytes data =
      (dispersed start data, afterBytes (start + data.length)) :=
  Prbs.applyBytes_afterBits dvbDispersal start data

theorem skipBytes_afterBytes (start count : ℕ) :
    (afterBytes start).skipBytes count = afterBytes (start + count) :=
  Prbs.skipBytes_afterBits dvbDispersal start count

theorem length_dispersed (start : ℕ) (data : List UInt8) :
    (dispersed start data).length = data.length := by
  rw [dispersed, List.length_zipWith, Prbs.keyBytes, List.length_map, List.length_range, min_self]

theorem zipWith_xor_twice {data a b : List UInt8} (ha : a.length = data.length)
    (hb : b.length = data.length) :
    List.zipWith (· ^^^ ·) (List.zipWith (· ^^^ ·) data a) b = data ↔ a = b := by
  induction data generalizing a b with
  | nil =>
    rw [List.length_nil, List.length_eq_zero_iff] at ha hb
    rw [ha, hb]
    simp
  | cons byte data ih =>
    cases a with
    | nil => cases ha
    | cons x a =>
      cases b with
      | nil => cases hb
      | cons y b =>
        rw [List.length_cons, List.length_cons, Nat.add_right_cancel_iff] at ha hb
        rw [List.zipWith_cons_cons, List.zipWith_cons_cons, List.cons.injEq, List.cons.injEq, ih ha hb,
          UInt8.xor_assoc]
        apply and_congr_left'
        constructor
        · intro hsame
          have hzero : byte ^^^ (x ^^^ y) = byte ^^^ 0 := by rw [hsame, UInt8.xor_zero]
          exact UInt8.xor_eq_zero_iff.mp ((UInt8.xor_right_inj byte).mp hzero)
        · rintro rfl
          rw [UInt8.xor_self, UInt8.xor_zero]

/-- Dispersing twice restores the bytes exactly if both stretches are at the same place of the
period. -/
theorem dispersed_dispersed {data : List UInt8} (hdata : 2 ≤ data.length) (a b : ℕ) :
    dispersed b (dispersed a data) = data ↔ 8 * a ≡ 8 * b [MOD period] := by
  have hkeys : ∀ start, (Prbs.keyBytes dvbDispersal start data.length).length = data.length := by
    intro start
    rw [Prbs.keyBytes, List.length_map, List.length_range]
  rw [dispersed, length_dispersed, dispersed, zipWith_xor_twice (hkeys a) (hkeys b),
    Prbs.keyBytes_dvb_eq_iff hdata]
  rfl

/-- The place in the sequence of a packet that comes `n` packets after the start. -/
theorem modEq_bytes (a b : ℕ) :
    8 * (packetLen * a) ≡ 8 * (packetLen * b) [MOD period] ↔ a ≡ b [MOD period] := by
  have hassoc : ∀ n, 8 * (packetLen * n) = 8 * packetLen * n := fun n ↦ (mul_assoc _ _ _).symm
  rw [hassoc, hassoc]
  constructor
  · exact Nat.ModEq.cancel_left_of_coprime (by decide)
  · exact Nat.ModEq.mul_left _

/-! ## The sender -/

/-- The state of the sender before the packet at `position`. -/
structure Dispersal.At (dispersal : Dispersal) (position : ℕ) : Prop where
  packets : dispersal.packets = position % group
  first : position % group = 0 → ∃ count, dispersal.prbs = afterBytes count
  later : position % group ≠ 0 →
    dispersal.prbs = afterBytes (packetLen * (position % group - 1) + (packetLen - 1))

theorem Dispersal.at_new : Dispersal.new.At 0 where
  packets := rfl
  first _ := ⟨0, rfl⟩
  later hne := absurd rfl hne

/-- The sync byte of the packet at `position`. -/
def syncAt (position : ℕ) : UInt8 := if position % group = 0 then invertedSync else sync

theorem TransportPacket.eq_cons (packet : TransportPacket) :
    packet.bytes = sync :: packet.bytes.drop 1 ∧ (packet.bytes.drop 1).length = packetLen - 1 := by
  have hhead := packet.head_eq
  have hlength := packet.length_eq
  cases hbytes : packet.bytes with
  | nil =>
    rw [hbytes] at hhead
    cases hhead
  | cons first rest =>
    rw [hbytes] at hhead hlength
    rw [Option.some.inj hhead, List.drop_one, List.tail_cons]
    rw [List.length_cons] at hlength
    exact ⟨rfl, by omega⟩

theorem Dispersal.At.scramble {dispersal : Dispersal} {position : ℕ} (hat : dispersal.At position)
    (packet : TransportPacket) :
    (dispersal.scramble packet.bytes).2 =
        syncAt position :: dispersed (packetLen * (position % group)) (packet.bytes.drop 1) ∧
      (dispersal.scramble packet.bytes).1.At (position + 1) := by
  have hlength := packet.eq_cons.2
  have hstart : (if dispersal.packets = 0 then (invertedSync, dispersal.prbs.reset)
      else (sync, dispersal.prbs.skipBytes 1)) =
        (syncAt position, afterBytes (packetLen * (position % group))) := by
    rw [syncAt, hat.packets]
    split_ifs with hfirst
    · obtain ⟨count, hprbs⟩ := hat.first hfirst
      rw [hprbs, hfirst]
      rfl
    · have hnext : packetLen * (position % group - 1) + (packetLen - 1) + 1 =
          packetLen * (position % group) := by
        rw [packetLen]
        omega
      rw [hat.later hfirst, skipBytes_afterBytes, hnext]
  rw [Dispersal.scramble, hstart]
  simp only [applyBytes_afterBytes, hlength]
  refine ⟨trivial, ?_⟩
  rw [hat.packets]
  have hnext : (position % group + 1) % group = (position + 1) % group := Nat.mod_add_mod _ _ _
  constructor
  · exact hnext
  · intro _
    exact ⟨_, rfl⟩
  · intro hne
    have hplace : position % group = (position + 1) % group - 1 := by
      rw [group] at hne ⊢
      omega
    rw [hplace]

/-! ## The receiver -/

/-- The derandomizer after `since` packets that followed an inverted sync byte. -/
def Derandomizer.Follows (derandomizer : Derandomizer) : Option ℕ → Prop
  | none => derandomizer.started = false ∧ ∃ count, derandomizer.prbs = afterBytes count
  | some n => derandomizer.started = true ∧
      derandomizer.prbs = afterBytes (packetLen * n + (packetLen - 1))

theorem Derandomizer.Follows.exists_prbs {derandomizer : Derandomizer} {since : Option ℕ}
    (hfollows : derandomizer.Follows since) : ∃ count, derandomizer.prbs = afterBytes count := by
  cases since with
  | none => exact hfollows.2
  | some n => exact ⟨_, hfollows.2⟩

/-- How many packets have followed an inverted sync byte once the packet at `position` is in. -/
def sinceAt (since : Option ℕ) (position : ℕ) : Option ℕ :=
  if position % group = 0 then some 0 else since.map (· + 1)

theorem Derandomizer.Follows.apply {derandomizer : Derandomizer} {since : Option ℕ}
    (hfollows : derandomizer.Follows since) (position : ℕ) {data : List UInt8}
    (hdata : data.length = packetLen - 1) :
    (derandomizer.apply (syncAt position :: data)).2 =
        (sinceAt since position).map (fun n ↦ sync :: dispersed (packetLen * n) data) ∧
      (derandomizer.apply (syncAt position :: data)).1.Follows (sinceAt since position) := by
  rw [Derandomizer.apply, syncAt, sinceAt, List.getD_cons_zero, List.drop_one, List.tail_cons]
  by_cases hfirst : position % group = 0
  · obtain ⟨count, hprbs⟩ := hfollows.exists_prbs
    have hreset : derandomizer.prbs.reset = afterBytes 0 := by
      rw [hprbs]
      rfl
    simp only [if_pos hfirst, hreset, applyBytes_afterBytes, hdata]
    exact ⟨rfl, rfl, rfl⟩
  · have hsync : sync ≠ invertedSync := by decide
    simp only [if_neg hfirst, if_neg hsync]
    cases since with
    | none =>
      rw [if_neg (by rw [hfollows.1]; decide)]
      exact ⟨rfl, hfollows⟩
    | some n =>
      rw [if_pos hfollows.1, hfollows.2, skipBytes_afterBytes]
      have hnext : packetLen * n + (packetLen - 1) + 1 = packetLen * (n + 1) := by
        rw [packetLen]
        omega
      simp only [hnext, applyBytes_afterBytes, hdata]
      exact ⟨rfl, rfl, rfl⟩

theorem decode_corrupted {data received : List UInt8} (hdata : data.length = packetLen)
    (hcorrupted : Corrupted (reedSolomon.encode data []) received) (hdecodable : decodable received) :
    ∃ n, reedSolomon.decode received = (some n, reedSolomon.encode data []) := by
  rcases hcorrupted.2 with hfew | hnone
  · refine ⟨_, errors_within_distance dvbPrimitive_isPrimitive 0 16 data received ?_ ?_ ?_⟩
    · rw [hdata]
      decide
    · rw [hcorrupted.1, hdata]
      rfl
    · exact Nat.mul_le_mul_left 2 hfew
  · rw [decodable, hnone] at hdecodable
    cases hdecodable

theorem take_encode {data : List UInt8} (hdata : data.length = packetLen) :
    (reedSolomon.encode data []).take packetLen = data := by
  have hencoded := (encode_systematic dvbPrimitive_isPrimitive 0 16 data).2
  rwa [hdata] at hencoded

/-- What is put out for a decodable codeword is the packet exactly if the receiver is in step. -/
theorem output_eq_iff (packet : TransportPacket) (position n : ℕ) :
    sync :: dispersed (packetLen * n) (dispersed (packetLen * (position % group))
        (packet.bytes.drop 1)) = packet.bytes ↔ n ≡ position % group [MOD period] := by
  obtain ⟨hbytes, hlength⟩ := packet.eq_cons
  have htwo : 2 ≤ (packet.bytes.drop 1).length := by
    rw [hlength, packetLen]
    decide
  generalize packet.bytes.drop 1 = data at hbytes hlength htwo ⊢
  rw [hbytes, List.cons.injEq, dispersed_dispersed htwo, modEq_bytes]
  simp only [true_and]
  exact ⟨Nat.ModEq.symm, Nat.ModEq.symm⟩

theorem delivered_cons (packet : TransportPacket) (packets : List TransportPacket)
    (output : Option (List UInt8)) (outputs : List (Option (List UInt8))) :
    Delivered (packet :: packets) (output :: outputs) ↔
      (∀ bytes ∈ output, packet.bytes = bytes) ∧ Delivered packets outputs := by
  constructor
  · intro hall
    constructor
    · intro bytes hbytes
      exact Option.some.inj (hall 0 bytes (by rw [List.getElem?_cons_zero, hbytes]))
    · intro i bytes hbytes
      exact hall (i + 1) bytes hbytes
  · rintro ⟨hfirst, hrest⟩ i bytes hbytes
    cases i with
    | zero =>
      rw [List.getElem?_cons_zero, Option.some_inj] at hbytes
      rw [List.getElem?_cons_zero, Option.map_some, hfirst bytes hbytes]
    | succ i => exact hrest i bytes hbytes

theorem delivered_iff_from {dispersal : Dispersal} {decoder : DvbsDecoder} {position : ℕ}
    {since : Option ℕ} {packets : List TransportPacket} {received : List (List UInt8)}
    (hat : dispersal.At position) (hfollows : decoder.derandomizer.Follows since)
    (hcorrupted : List.Forall₂ Corrupted (transmit dispersal packets) received) :
    Delivered packets (decoder.receive received) ↔
      InStep since position (received.map decodable) := by
  induction packets generalizing dispersal decoder position since received with
  | nil =>
    rw [transmit] at hcorrupted
    cases hcorrupted
    simp [DvbsDecoder.receive, InStep, Delivered]
  | cons packet packets ih =>
    rw [transmit] at hcorrupted
    cases hcorrupted with
    | @cons _ codeword _ codewords hfirst hrest =>
      obtain ⟨hscrambled, hat'⟩ := hat.scramble packet
      rw [hscrambled] at hfirst
      have hdispersed : (dispersed (packetLen * (position % group)) (packet.bytes.drop 1)).length =
          packetLen - 1 := by
        rw [length_dispersed, packet.eq_cons.2]
      have hdata : (syncAt position :: dispersed (packetLen * (position % group))
          (packet.bytes.drop 1)).length = packetLen := by
        rw [List.length_cons, hdispersed]
        rfl
      rw [DvbsDecoder.receive, delivered_cons, List.map_cons]
      cases hdecodable : decodable codeword with
      | false =>
        have hfinished : (decoder.finishCodeword codeword).2 = none ∧
            (decoder.finishCodeword codeword).1.derandomizer = decoder.derandomizer := by
          rw [decodable, Option.isSome_eq_false_iff, Option.isNone_iff_eq_none] at hdecodable
          rw [DvbsDecoder.finishCodeword]
          cases hdecode : reedSolomon.decode codeword with
          | mk corrected word =>
            rw [hdecode] at hdecodable
            simp only at hdecodable
            subst hdecodable
            exact ⟨rfl, rfl⟩
        rw [InStep, ← ih hat' (by rw [hfinished.2]; exact hfollows) hrest, hfinished.1]
        simp
      | true =>
        obtain ⟨n, hdecode⟩ := decode_corrupted hdata hfirst hdecodable
        obtain ⟨houtput, hnext⟩ := hfollows.apply position hdispersed
        have hfinished : (decoder.finishCodeword codeword).2 =
              (sinceAt since position).map (fun n ↦ sync :: dispersed (packetLen * n)
                (dispersed (packetLen * (position % group)) (packet.bytes.drop 1))) ∧
            (decoder.finishCodeword codeword).1.derandomizer.Follows (sinceAt since position) := by
          rw [DvbsDecoder.finishCodeword, hdecode]
          simp only [take_encode hdata]
          exact ⟨houtput, hnext⟩
        rw [InStep, ← sinceAt, hfinished.1, ih hat' hfinished.2 hrest]
        apply and_congr_left'
        cases sinceAt since position with
        | none => simp
        | some since =>
          simp only [Option.map_some, Option.mem_def, Option.some.injEq, forall_eq']
          rw [eq_comm]
          exact output_eq_iff packet position since

theorem Derandomizer.follows_new : Derandomizer.new.Follows none := ⟨rfl, 0, rfl⟩

/-- The receiver puts out nothing but what was sent in its place exactly if every codeword that it
decodes is in step. -/
theorem delivers_iff (packets : List TransportPacket) (received : List (List UInt8))
    (hcorrupted : List.Forall₂ Corrupted (transmit .new packets) received) :
    Delivered packets (DvbsDecoder.receive {} received) ↔
      InStep none 0 (received.map decodable) :=
  delivered_iff_from Dispersal.at_new Derandomizer.follows_new hcorrupted

/-! ## A lost codeword -/

def emptyPacket : TransportPacket where
  bytes := sync :: List.replicate 187 0
  length_eq := by rw [List.length_cons, List.length_replicate]; rfl
  head_eq := rfl

theorem errorIndices_self (word : List UInt8) : errorIndices word word [] = [] := by
  rw [errorIndices, List.filter_eq_nil_iff]
  simp

theorem length_encode {data : List UInt8} (hdata : data.length = packetLen) :
    (reedSolomon.encode data []).length = codewordLen := by
  have hencoded := (encode_systematic dvbPrimitive_isPrimitive 0 16 data).1
  rwa [hdata] at hencoded

theorem corrupted_self {data : List UInt8} (hdata : data.length = packetLen) :
    Corrupted (reedSolomon.encode data []) (reedSolomon.encode data []) := by
  refine ⟨length_encode hdata, Or.inl ?_⟩
  rw [errorIndices_self]
  exact Nat.zero_le _

theorem decodable_encode {data : List UInt8} (hdata : data.length = packetLen) :
    decodable (reedSolomon.encode data []) := by
  obtain ⟨n, hdecode⟩ : ∃ n, reedSolomon.decode (reedSolomon.encode data []) =
      (some n, reedSolomon.encode data []) := by
    refine ⟨_, errors_within_distance dvbPrimitive_isPrimitive 0 16 data _ ?_ ?_ ?_⟩
    · rw [hdata]
      decide
    · rw [length_encode hdata, hdata]
      rfl
    · rw [show ReedSolomon.new dvbPrimitive 0 16 = reedSolomon from rfl, errorIndices_self]
      exact Nat.zero_le _
  rw [decodable, hdecode]
  rfl

/-- The scrambled packets of a stream, before they are encoded. -/
theorem transmit_cons {dispersal : Dispersal} {position : ℕ} (hat : dispersal.At position)
    (packet : TransportPacket) (packets : List TransportPacket) :
    ∃ data next, data.length = packetLen ∧ Dispersal.At next (position + 1) ∧
      transmit dispersal (packet :: packets) = reedSolomon.encode data [] :: transmit next packets := by
  obtain ⟨hscrambled, hnext⟩ := hat.scramble packet
  refine ⟨_, _, ?_, hnext, rfl⟩
  rw [hscrambled, List.length_cons, length_dispersed, packet.eq_cons.2]
  rfl

theorem delivers_emptyPacket :
    List.Forall₂ Corrupted (transmit .new [emptyPacket]) (transmit .new [emptyPacket]) ∧
      (Delivered [emptyPacket] (DvbsDecoder.receive {} (transmit .new [emptyPacket])) ↔
        InStep none 0 ((transmit .new [emptyPacket]).map decodable)) := by
  have hcorrupted : List.Forall₂ Corrupted (transmit .new [emptyPacket])
      (transmit .new [emptyPacket]) := by
    obtain ⟨data, next, hdata, -, hsent⟩ := transmit_cons Dispersal.at_new emptyPacket []
    rw [hsent]
    exact .cons (corrupted_self hdata) .nil
  exact ⟨hcorrupted, delivers_iff _ _ hcorrupted⟩

/-- Of three packets the second is lost, and the third is put out wrong. -/
theorem lost_codeword_slips : ∃ packets received,
    List.Forall₂ Corrupted (transmit .new packets) received ∧
      ¬Delivered packets (DvbsDecoder.receive {} received) := by
  obtain ⟨lost, hlength, hlost⟩ := exists_undecodable dvbPrimitive_isPrimitive 0
    (show 15 + 1 < 256 by decide) (show 15 + 1 ≤ codewordLen by decide) (by decide)
  obtain ⟨a, second, ha, hsecond, hfirst⟩ :=
    transmit_cons Dispersal.at_new emptyPacket [emptyPacket, emptyPacket]
  obtain ⟨b, third, -, hthird, hmiddle⟩ := transmit_cons hsecond emptyPacket [emptyPacket]
  obtain ⟨c, last, hc, -, hlast⟩ := transmit_cons hthird emptyPacket []
  have hcorrupted : List.Forall₂ Corrupted (transmit .new [emptyPacket, emptyPacket, emptyPacket])
      [reedSolomon.encode a [], lost, reedSolomon.encode c []] := by
    rw [hfirst, hmiddle, hlast]
    exact .cons (corrupted_self ha) (.cons ⟨hlength, Or.inr hlost⟩ (.cons (corrupted_self hc) .nil))
  refine ⟨_, _, hcorrupted, ?_⟩
  have hiff : Delivered _ (DvbsDecoder.receive {} _) ↔ _ :=
    delivered_iff_from Dispersal.at_new Derandomizer.follows_new hcorrupted
  rw [hiff]
  have hmissing : decodable lost = false := by
    rw [decodable, show reedSolomon = ReedSolomon.new dvbPrimitive 0 ⟨15 + 1, by decide⟩ from rfl, hlost]
    rfl
  simp only [List.map_cons, List.map_nil, decodable_encode ha, hmissing, decodable_encode hc]
  rintro ⟨-, hstep, -⟩
  have hslip := hstep 1 rfl
  revert hslip
  decide

end Sdrmm.Dvbs
