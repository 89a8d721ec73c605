import Sdrmm.Channels.DabInterleave
import Sdrmm.Channels.DabMask

/-!
# Sub-channel frames from the encoder to the decoder

A decoder that is fed what the encoder sends gives the frames back, sixteen frames late.
-/

namespace Sdrmm.Dab

open Conv7 (Soft)
open Lib.Checked (Halt ok_bind)

/-! ## Bytes and bits -/

/-- One bit into its byte. -/
def putBit (out : List UInt8) (entry : Bool × ℕ) : List UInt8 :=
  out.modify (entry.2 / 8) (· ||| entry.1.toUInt8 <<< UInt8.ofNat (7 - entry.2 % 8))

theorem packMsb_eq (bits : List Bool) :
    packMsb bits = bits.zipIdx.foldl putBit (List.replicate ((bits.length + 7) / 8) 0) := rfl

set_option maxRecDepth 100000 in
theorem octet_spec (byte : UInt8) :
    [7, 6, 5, 4, 3, 2, 1, 0].foldl (fun (octet : UInt8) shift ↦
      octet ||| (byte >>> shift &&& 1 == 1).toUInt8 <<< shift) 0 = byte := by
  have hall : ∀ n < 256, [7, 6, 5, 4, 3, 2, 1, 0].foldl (fun (octet : UInt8) shift ↦
      octet ||| (UInt8.ofNat n >>> shift &&& 1 == 1).toUInt8 <<< shift) 0 = UInt8.ofNat n := by
    decide
  have hbyte := hall byte.toNat byte.toNat_lt
  rwa [UInt8.ofNat_toNat] at hbyte

theorem foldl_putBit_later (bits : List Bool) (start : ℕ) (octet : UInt8) (out : List UInt8) :
    (bits.zipIdx (start + 8)).foldl putBit (octet :: out) = octet :: (bits.zipIdx start).foldl putBit out := by
  induction bits generalizing start out with
  | nil => rfl
  | cons bit bits ih =>
    have hput : putBit (octet :: out) (bit, start + 8) = octet :: putBit out (bit, start) := by
      simp only [putBit]
      rw [Nat.add_div_right _ (by decide), Nat.add_mod_right, List.modify_succ_cons]
    rw [List.zipIdx_cons, List.zipIdx_cons, List.foldl_cons, List.foldl_cons, hput, Nat.add_right_comm, ih]

theorem length_msbBits (payload : List UInt8) : (msbBits payload).length = 8 * payload.length := by
  induction payload with
  | nil => rfl
  | cons byte payload ih =>
    rw [msbBits, List.flatMap_cons, List.length_append]
    change 8 + (msbBits payload).length = _
    rw [ih, List.length_cons]
    omega

theorem packMsb_msbBits (payload : List UInt8) : packMsb (msbBits payload) = payload := by
  rw [packMsb_eq, length_msbBits, show (8 * payload.length + 7) / 8 = payload.length by omega]
  induction payload with
  | nil => rfl
  | cons byte payload ih =>
    have hoctet : ((([7, 6, 5, 4, 3, 2, 1, 0] : List UInt8).map fun shift ↦ byte >>> shift &&& 1 == 1).zipIdx.foldl
        putBit (0 :: List.replicate payload.length 0)) = byte :: List.replicate payload.length 0 := by
      have hspec := octet_spec byte
      simp only [List.foldl_cons, List.foldl_nil] at hspec
      simp only [List.map_cons, List.map_nil, List.zipIdx_cons, List.zipIdx_nil, List.foldl_cons, List.foldl_nil,
        putBit, Nat.reduceAdd, Nat.reduceDiv, Nat.reduceMod, Nat.reduceSub, List.modify_zero_cons]
      exact congrArg (· :: List.replicate payload.length 0) hspec
    rw [msbBits, List.flatMap_cons, List.zipIdx_append, List.foldl_append, List.length_cons, List.replicate_succ,
      hoctet]
    apply (foldl_putBit_later (msbBits payload) 0 byte (List.replicate payload.length 0)).trans
    rw [ih]

/-! ## One frame -/

namespace Protection

/-- The bits of a frame that go into the interleaver. -/
def sent (protection : Protection) (payload : List UInt8) : List Bool :=
  puncture protection.mask
    ((Conv7.ConvCode.new generators).encode ((SubChannelEncoder.new protection).scrambled payload))

/-- The bytes of the frame that is decoded from what the deinterleaver gives. -/
def decoded (protection : Protection) (viterbi : Conv7.ViterbiK7) (aligned : List Soft) : List UInt8 :=
  packMsb ((Prbs.new dabDispersal).applyBits
    ((viterbi.decodeTailed (depuncture protection.mask aligned) []).2.1.take protection.frameBits)).1

variable {protection : Protection} {payload : List UInt8}

theorem Sound.scrambled_eq (hsound : protection.Sound) (hpayload : payload.length = protection.frameBits / 8) :
    (SubChannelEncoder.new protection).scrambled payload =
      ((Prbs.new dabDispersal).applyBits (msbBits payload)).1 ++ List.replicate 6 false := by
  have hlength : (msbBits payload).length = protection.frameBits := by
    rw [length_msbBits, hpayload, Nat.mul_div_cancel' hsound.octets]
  have hresize : resize (msbBits payload) protection.frameBits = msbBits payload := by
    rw [resize, hlength, Nat.sub_self, List.replicate_zero, List.append_nil, List.take_of_length_le hlength.le]
  rw [SubChannelEncoder.scrambled]
  change ((Prbs.new dabDispersal).applyBits (resize (msbBits payload) protection.frameBits)).1 ++ _ = _
  rw [hresize]

theorem Sound.length_scrambled (hsound : protection.Sound) (hpayload : payload.length = protection.frameBits / 8) :
    ((SubChannelEncoder.new protection).scrambled payload).length = protection.frameBits + 6 := by
  rw [hsound.scrambled_eq hpayload, List.length_append, Prbs.length_applyBits, length_msbBits, hpayload,
    Nat.mul_div_cancel' hsound.octets, List.length_replicate]

theorem Sound.length_encode (hsound : protection.Sound) (hpayload : payload.length = protection.frameBits / 8) :
    protection.mask.length =
      ((Conv7.ConvCode.new generators).encode ((SubChannelEncoder.new protection).scrambled payload)).length := by
  rw [hsound.length_mask, ← hsound.length_scrambled hpayload]
  exact (Conv7.length_encodeFrom (Conv7.ConvCode.new generators) 0 _).symm

theorem Sound.length_sent (hsound : protection.Sound) (hpayload : payload.length = protection.frameBits / 8) :
    (protection.sent payload).length = protection.codedBits := by
  rw [sent, length_puncture (hsound.length_encode hpayload), hsound.count_mask]

theorem flushed (bits : List Bool) : (bits ++ List.replicate 6 false).foldl Conv7.ConvCode.advance 0 = 0 := by
  have hall : ∀ state : Conv7.State, (List.replicate 6 false).foldl Conv7.ConvCode.advance state = 0 := by decide
  rw [List.foldl_append]
  exact hall _

/-- A frame is decoded from the bits that were sent of it. -/
theorem Sound.decoded_sent (hsound : protection.Sound) (hpayload : payload.length = protection.frameBits / 8)
    {viterbi : Conv7.ViterbiK7} (hviterbi : Conv7.Reachable generators viterbi) :
    protection.decoded viterbi ((protection.sent payload).map Conv7.soft) = payload := by
  have hmask : protection.mask.length = 4 * ((SubChannelEncoder.new protection).scrambled payload).length := by
    rw [hsound.length_mask, hsound.length_scrambled hpayload]
  have hfirst : ∀ k < ((SubChannelEncoder.new protection).scrambled payload).length,
      protection.mask[4 * k]? = some true := by
    intro k hk
    apply hsound.firstKept_mask
    omega
  have htail : ((SubChannelEncoder.new protection).scrambled payload).foldl Conv7.ConvCode.advance 0 = 0 := by
    rw [hsound.scrambled_eq hpayload]
    exact flushed _
  have hword := Conv7.decodeTailed_erased (show generators.EndsTapped by decide) hviterbi hmask hfirst htail []
  have hframe : (((Prbs.new dabDispersal).applyBits (msbBits payload)).1).length = protection.frameBits := by
    rw [Prbs.length_applyBits, length_msbBits, hpayload, Nat.mul_div_cancel' hsound.octets]
  rw [decoded, sent, depuncture_puncture (hsound.length_encode hpayload), hword, List.nil_append,
    hsound.scrambled_eq hpayload, ← hframe, List.take_left, Prbs.applyBits_applyBits, packMsb_msbBits]

end Protection

/-! ## The encoder -/

/-- The encoder after some frames. -/
structure Encoding (protection : Protection) (history : List (List Bool)) (encoder : SubChannelEncoder) : Prop where
  profile : encoder.protection = protection
  code : encoder.code = .new generators
  interleaving : Interleaving protection.codedBits history encoder.interleaver

theorem encoding_new (protection : Protection) : Encoding protection [] (.new protection) :=
  ⟨rfl, rfl, interleaving_new protection.codedBits⟩

section Encoder

variable {protection : Protection} {history : List (List Bool)} {encoder : SubChannelEncoder}

theorem Encoding.frame (hencoding : Encoding protection history encoder) {payload : List UInt8}
    (hlength : (protection.sent payload).length = protection.codedBits) :
    ∃ next, encoder.frame payload =
        .ok (next, sentOf protection.codedBits (history ++ [protection.sent payload])) ∧
      Encoding protection (history ++ [protection.sent payload]) next := by
  obtain ⟨interleaver, hpush, hnext⟩ := hencoding.interleaving.push hlength
  have hsent : puncture encoder.protection.mask (encoder.code.encode (encoder.scrambled payload)) =
      protection.sent payload := by
    rw [hencoding.code, SubChannelEncoder.scrambled, hencoding.profile]
    rfl
  refine ⟨{ encoder with interleaver }, ?_, hencoding.profile, hencoding.code, hnext⟩
  rw [SubChannelEncoder.frame, hsent, hpush, ok_bind]
  rfl

theorem Encoding.fragments (hencoding : Encoding protection history encoder) (payloads : List (List UInt8))
    (hlengths : ∀ payload ∈ payloads, (protection.sent payload).length = protection.codedBits) :
    encoder.fragments payloads = .ok ((List.range payloads.length).map fun k ↦
      sentOf protection.codedBits (history ++ (payloads.take (k + 1)).map protection.sent)) := by
  induction payloads generalizing history encoder with
  | nil => rfl
  | cons payload payloads ih =>
    obtain ⟨next, hframe, hnext⟩ := hencoding.frame (hlengths payload List.mem_cons_self)
    have hrest := ih hnext fun other hother ↦ hlengths other (List.mem_cons_of_mem _ hother)
    rw [SubChannelEncoder.fragments, hframe, ok_bind]
    apply (congrArg (· >>= _) hrest).trans
    rw [ok_bind, List.length_cons, List.range_succ_eq_map, List.map_cons, List.map_map]
    apply congrArg Except.ok
    apply congrArg₂ List.cons
    · rw [Nat.zero_add, List.take_succ_cons, List.take_zero]
      rfl
    · apply List.map_congr_left
      intro k _
      rw [Function.comp_apply, List.take_succ_cons, List.map_cons, List.append_assoc, List.singleton_append]

end Encoder

/-! ## The decoder -/

/-- The decoder after some fragments. -/
structure Decoding (protection : Protection) (history : List (List Soft)) (decoder : SubChannelDecoder) : Prop where
  profile : decoder.protection = protection
  deinterleaving : Deinterleaving protection.codedBits history decoder.deinterleaver
  viterbi : Conv7.Reachable generators decoder.viterbi

theorem decoding_new (protection : Protection) : Decoding protection [] (.new protection) :=
  ⟨rfl, deinterleaving_new protection.codedBits, .new⟩

section Decoder

variable {protection : Protection} {history : List (List Soft)} {decoder : SubChannelDecoder}

theorem Decoding.frame (hdecoding : Decoding protection history decoder) {fragment : List Soft}
    (hlength : fragment.length = protection.codedBits) (out : List UInt8) :
    ∃ next, decoder.frame fragment out =
        (decide (depth ≤ history.length), next, if depth ≤ history.length then
          protection.decoded decoder.viterbi (receivedOf protection.codedBits history) else out) ∧
      Decoding protection (history ++ [fragment]) next := by
  obtain ⟨rfl, hdeinterleaving, hviterbi⟩ := hdecoding
  obtain ⟨deinterleaver, hpush, hnext⟩ := hdeinterleaving.push hlength decoder.aligned
  unfold SubChannelDecoder.frame
  rw [hpush]
  by_cases hready : depth ≤ history.length
  · dsimp only
    rw [decide_eq_true hready, if_pos rfl, if_pos hready]
    exact ⟨_, rfl, ⟨rfl, hnext, hviterbi.decodeTailed _ []⟩⟩
  · dsimp only
    rw [decide_eq_false hready, if_neg Bool.false_ne_true, if_neg hready]
    exact ⟨_, rfl, ⟨rfl, hnext, hviterbi⟩⟩

/-- The frames of a run, where every decoder gives what is expected of its fragments. -/
theorem Decoding.frames (hdecoding : Decoding protection history decoder) (expected : ℕ → List UInt8)
    (fragments : List (List Soft)) (out : List UInt8)
    (hlengths : ∀ fragment ∈ fragments, fragment.length = protection.codedBits)
    (hexpected : ∀ k < fragments.length, depth ≤ history.length + k → ∀ viterbi, Conv7.Reachable generators viterbi →
      protection.decoded viterbi (receivedOf protection.codedBits (history ++ fragments.take k)) =
        expected (history.length + k)) :
    decoder.frames out fragments = (List.range' history.length fragments.length).map fun number ↦
      if depth ≤ number then some (expected number) else none := by
  induction fragments generalizing history decoder out with
  | nil => rfl
  | cons fragment fragments ih =>
    obtain ⟨next, hframe, hnext⟩ := hdecoding.frame (hlengths fragment List.mem_cons_self) out
    have hlast : (history ++ [fragment]).length = history.length + 1 := List.length_append
    have hrest := fun out ↦ ih hnext out (fun other hother ↦ hlengths other (List.mem_cons_of_mem _ hother)) (by
      intro k hk hready viterbi hviterbi
      rw [hlast] at hready ⊢
      have hlater := hexpected (k + 1) (Nat.succ_lt_succ hk) (by omega) viterbi hviterbi
      rwa [List.take_succ_cons, List.append_cons, ← Nat.add_assoc, Nat.add_right_comm] at hlater)
    rw [SubChannelDecoder.frames, hframe]
    dsimp only
    rw [hrest, hlast, List.length_cons, List.range'_succ, List.map_cons]
    apply congrArg (· :: _)
    by_cases hready : depth ≤ history.length
    · have hfirst := hexpected 0 (Nat.succ_pos _) hready decoder.viterbi hdecoding.viterbi
      rw [List.take_zero, List.append_nil, Nat.add_zero] at hfirst
      rw [decide_eq_true hready, if_pos rfl, if_pos hready, if_pos hready, hfirst]
    · rw [decide_eq_false hready, if_neg Bool.false_ne_true, if_neg hready]

end Decoder

/-! ## The pair -/

theorem length_sentOf (count : ℕ) (history : List (List Bool)) : (sentOf count history).length = count := by
  rw [sentOf, List.length_map, List.length_range]

/-- For every profile and every sequence of frames, the decoder gives nothing for the first sixteen and from then on
each frame sixteen calls after it was sent. -/
theorem subchannel_round_trip {protection : Protection}
    (hbuilt : (∃ bitrate profile level, Protection.eep bitrate profile level = some protection) ∨
      ∃ tableIndex, Protection.uep tableIndex = some protection)
    (payloads : List (List UInt8)) (hpayloads : ∀ payload ∈ payloads, payload.length = protection.frameBits / 8)
    (out : List UInt8) :
    ∃ sent, (SubChannelEncoder.new protection).fragments payloads = .ok sent ∧
      (SubChannelDecoder.new protection).frames out (sent.map (·.map Conv7.soft)) =
        (List.range payloads.length).map fun number ↦
          if number < depth then none else payloads[number - depth]? := by
  have hsound : protection.Sound := by
    rcases hbuilt with ⟨bitrate, profile, level, heep⟩ | ⟨tableIndex, huep⟩
    · exact eep_sound heep
    · exact uep_sound huep
  have hlengths : ∀ payload ∈ payloads, (protection.sent payload).length = protection.codedBits :=
    fun payload hpayload ↦ hsound.length_sent (hpayloads payload hpayload)
  refine ⟨_, (encoding_new protection).fragments payloads hlengths, ?_⟩
  have hframes := (decoding_new protection).frames (fun number ↦ payloads.getD (number - depth) [])
    (((List.range payloads.length).map fun k ↦
      sentOf protection.codedBits ([] ++ (payloads.take (k + 1)).map protection.sent)).map (·.map Conv7.soft)) out
  rw [hframes]
  · rw [List.length_map, List.length_map, List.length_range, List.length_nil, ← List.range_eq_range']
    apply List.map_congr_left
    intro number hnumber
    by_cases hready : depth ≤ number
    · have hlt : number - depth < payloads.length := by
        have := List.mem_range.mp hnumber
        omega
      rw [if_pos hready, if_neg (Nat.not_lt.mpr hready), List.getD_eq_getElem _ _ hlt, List.getElem?_eq_getElem hlt]
    · rw [if_neg hready, if_pos (Nat.not_le.mp hready)]
  · intro fragment hfragment
    obtain ⟨sent, hsent, rfl⟩ := List.mem_map.mp hfragment
    obtain ⟨k, -, rfl⟩ := List.mem_map.mp hsent
    rw [List.length_map, length_sentOf]
  · intro k hk hready viterbi hviterbi
    rw [List.length_map, List.length_map, List.length_range] at hk
    rw [List.length_nil, Nat.zero_add] at hready ⊢
    have hlt : k - depth < payloads.length := by omega
    have hframe : (payloads.map protection.sent)[k - depth]? = some (protection.sent payloads[k - depth]) := by
      rw [List.getElem?_map, List.getElem?_eq_getElem hlt]
      rfl
    have hreceived := receivedOf_sent Conv7.soft (hlengths _ (List.getElem_mem hlt))
      (show k ≤ (payloads.map protection.sent).length by rw [List.length_map]; omega) hready hframe
    have hhistory : [] ++ (((List.range payloads.length).map fun k ↦
        sentOf protection.codedBits ([] ++ (payloads.take (k + 1)).map protection.sent)).map
          (·.map Conv7.soft)).take k =
        (List.range k).map fun k ↦
          (sentOf protection.codedBits ((payloads.map protection.sent).take (k + 1))).map Conv7.soft := by
      simp only [List.nil_append, List.map_take, List.map_map]
      rw [← List.map_take, List.take_range, Nat.min_eq_left hk.le]
      rfl
    rw [hhistory, hreceived, hsound.decoded_sent (hpayloads _ (List.getElem_mem hlt)) hviterbi,
      List.getD_eq_getElem _ _ hlt]

/-- A sub-channel of eight kilobits a second. -/
theorem subchannel_round_trip_eight :
    ∃ sent, (SubChannelEncoder.new ⟨[(3, 8), (3, 7)], 192, 384⟩).fragments
        (List.replicate 20 (List.replicate 24 0xA5)) = .ok sent ∧
      (SubChannelDecoder.new ⟨[(3, 8), (3, 7)], 192, 384⟩).frames [] (sent.map (·.map Conv7.soft)) =
        (List.range (List.replicate 20 (List.replicate 24 (0xA5 : UInt8))).length).map fun number ↦
          if number < depth then none else (List.replicate 20 (List.replicate 24 0xA5))[number - depth]? := by
  apply subchannel_round_trip
  · exact Or.inl ⟨8, .a, 3, by decide⟩
  · intro payload hpayload
    rw [List.eq_of_mem_replicate hpayload]
    rfl

end Sdrmm.Dab
