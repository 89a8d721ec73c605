import Sdrmm.Channels.Dvbs

/-!
# Transport packets in baseband fields

The receiver of `datv/dvbs2/transport.rs` with what it reads of a baseband header, from
`datv/dvbs2/bb.rs`.  A packet loses its sync byte to the check of the packet before it, so that the
receiver can give a packet only when it sees the byte after it.  `Awaits` says what the receiver has
still to get and to give; `push_awaits` is its step over one field.
-/

namespace Sdrmm.Dvbs2

open Dvbs

/-! ## The baseband header -/

inductive BaseBandKind
  | genericPacketized | genericContinuous | highEfficiency | transport
  deriving DecidableEq

def userPacketBits : ℕ := packetLen * 8

def crcPoly : UInt8 := 0xD5

/-- One bit of `crc8`. -/
def crc8Shift (crc : UInt8) : UInt8 :=
  if crc &&& 0x80 ≠ 0 then (crc <<< 1) ^^^ crcPoly else crc <<< 1

def crc8 (data : List UInt8) : UInt8 := data.foldl (fun crc byte ↦ crc8Shift^[8] (crc ^^^ byte)) 0

structure BaseBandHeader where
  kind : BaseBandKind := .transport
  userPacketBits : UInt16 := 1504
  dataFieldBits : UInt16 := 0
  sync : UInt8 := Dvbs.sync
  syncDistance : UInt16 := 0

structure BaseBandData where
  header : BaseBandHeader
  field : List UInt8

/-! ## The receiver -/

structure Transport where
  packet : List UInt8
  filled : ℕ
  synchronized : Bool
  length_eq : packet.length = packetLen
  filled_le : filled ≤ packetLen

namespace Transport

def new : Transport where
  packet := List.replicate packetLen 0
  filled := 0
  synchronized := false
  length_eq := List.length_replicate
  filled_le := Nat.zero_le _

def reset (transport : Transport) : Transport :=
  { transport with filled := 0, synchronized := false, filled_le := Nat.zero_le _ }

/-- The packet that a byte checks, and the number of errors. -/
def check (transport : Transport) (byte : UInt8) : List (List UInt8) × ℕ :=
  if transport.filled = packetLen then
    if crc8 (transport.packet.drop 1) = byte then ([transport.packet], 0) else ([], 1)
  else ([], 0)

/-- The receiver with one more byte of the packet. -/
def store (transport : Transport) (byte : UInt8) : Transport :=
  if hfull : transport.filled = 0 ∨ transport.filled = packetLen then
    { transport with
      packet := transport.packet.set 0 sync
      filled := 1
      length_eq := by rw [List.length_set, transport.length_eq]
      filled_le := by decide }
  else
    { transport with
      packet := transport.packet.set transport.filled byte
      filled := transport.filled + 1
      length_eq := by rw [List.length_set, transport.length_eq]
      filled_le := by
        have := transport.filled_le
        omega }

/-- The bytes of a field one after the other. -/
def pushBytes (transport : Transport) : List UInt8 → Transport × List (List UInt8) × ℕ
  | [] => (transport, [], 0)
  | byte :: rest =>
      let checked := transport.check byte
      let (last, packets, errors) := pushBytes (transport.store byte) rest
      (last, checked.1 ++ packets, checked.2 + errors)

/-- Where a field has to begin, or nothing if the receiver cannot start in it. -/
def start (transport : Transport) (frame : BaseBandData) (distance : ℕ) : Option ℕ :=
  if transport.synchronized then some 0
  else if frame.header.syncDistance = 0xFFFF ∨ frame.field.length ≤ distance then none
  else some distance

/-- The receiver after a field, the packets it gave and the number of errors. -/
def push (transport : Transport) (frame : BaseBandData) : Transport × List (List UInt8) × ℕ :=
  let header := frame.header
  if header.kind ≠ .transport ∨ header.userPacketBits.toNat ≠ Dvbs2.userPacketBits ∨
      header.sync ≠ sync ∨ header.dataFieldBits.toNat % 8 ≠ 0 ∨
      (header.syncDistance ≠ 0xFFFF ∧ header.syncDistance.toNat % 8 ≠ 0) then
    (transport.reset, [], 1)
  else
    let distance := header.syncDistance.toNat / 8
    if header.syncDistance ≠ 0xFFFF ∧ packetLen ≤ distance then (transport.reset, [], 1)
    else
      let lost := transport.synchronized ∧ header.syncDistance ≠ 0xFFFF ∧
        distance ≠ (packetLen - transport.filled) % packetLen
      let held := if lost then transport.reset else transport
      let errors := if lost then 1 else 0
      match held.start frame distance with
      | none => (held, [], errors)
      | some start =>
          let (last, packets, more) :=
            { held with synchronized := true }.pushBytes (frame.field.drop start)
          (last, packets, errors + more)

/-- The fields in order, with the packets of all and the number of errors of each. -/
def run (transport : Transport) : List BaseBandData → List (List UInt8) × List ℕ
  | [] => ([], [])
  | frame :: rest =>
      let (next, packets, errors) := transport.push frame
      let (more, counts) := run next rest
      (packets ++ more, errors :: counts)

end Transport

/-! ## The sender -/

/-- The stream of some packets, each with the check of the one before it instead of its sync byte; the
check of the last one ends it. -/
def adapted : UInt8 → List TransportPacket → List UInt8
  | carry, [] => [carry]
  | carry, packet :: packets =>
      carry :: (packet.bytes.drop 1 ++ adapted (crc8 (packet.bytes.drop 1)) packets)

/-- The header of a field of the stream of `count` packets tells how far it is to the first packet that
starts in it; the check at the end stands where another packet would start. -/
structure Headed (count position : ℕ) (frame : BaseBandData) : Prop where
  field_ne : frame.field ≠ []
  kind_eq : frame.header.kind = .transport
  bits_eq : frame.header.userPacketBits.toNat = userPacketBits
  sync_eq : frame.header.sync = sync
  whole : frame.header.dataFieldBits.toNat % 8 = 0
  distance : (frame.header.syncDistance = 0xFFFF ∧ ∀ index < frame.field.length,
      (position + index) % packetLen = 0 → packetLen * count ≤ position + index) ∨
    ∃ index < frame.field.length, frame.header.syncDistance.toNat = 8 * index ∧
      (position + index) % packetLen = 0 ∧
      ∀ before < index, (position + before) % packetLen ≠ 0

/-- Each field of a sequence is headed. -/
def AllHeaded (count : ℕ) : ℕ → List BaseBandData → Prop
  | _, [] => True
  | position, frame :: rest =>
      Headed count position frame ∧ AllHeaded count (position + frame.field.length) rest

/-! ## What is still to come -/

theorem adapted_ne_nil (carry : UInt8) (packets : List TransportPacket) : adapted carry packets ≠ [] := by
  cases packets with
  | nil => exact List.cons_ne_nil _ _
  | cons packet packets => exact List.cons_ne_nil _ _

theorem take_one (packet : TransportPacket) : packet.bytes.take 1 = [sync] := by
  have hhead := packet.head_eq
  cases hbytes : packet.bytes with
  | nil => simp [hbytes] at hhead
  | cons byte rest =>
    rw [hbytes, List.head?_cons, Option.some.injEq] at hhead
    rw [hhead, List.take_succ_cons, List.take_zero]

/-- The receiver has the first bytes of the packet that `stream` continues, and `left` is still to be
given; behind the last check nothing is. -/
structure Awaits (transport : Transport) (position : ℕ) (stream : List UInt8)
    (left : List TransportPacket) : Prop where
  synchronized : transport.synchronized = true
  filled_pos : 0 < transport.filled
  filled_mod : transport.filled % packetLen = position % packetLen
  pending : (left = [] ∧ stream = []) ∨ ∃ packet packets, left = packet :: packets ∧
    transport.packet.take transport.filled = packet.bytes.take transport.filled ∧
    stream = packet.bytes.drop transport.filled ++ adapted (crc8 (packet.bytes.drop 1)) packets

theorem Awaits.left_eq_nil {transport : Transport} {position : ℕ} {left : List TransportPacket}
    (hawaits : Awaits transport position [] left) : left = [] := by
  cases hawaits.pending with
  | inl hended => exact hended.1
  | inr hpacket =>
    obtain ⟨packet, packets, _, _, hstream⟩ := hpacket
    have hnil := (List.append_eq_nil_iff.mp hstream.symm).2
    exact absurd hnil (adapted_ne_nil _ _)

namespace Transport

theorem store_of_full {transport : Transport} (hfull : transport.filled = 0 ∨ transport.filled = packetLen)
    (byte : UInt8) : (transport.store byte).filled = 1 ∧
      (transport.store byte).packet = transport.packet.set 0 sync ∧
      (transport.store byte).synchronized = transport.synchronized := by
  unfold store
  rw [dif_pos hfull]
  exact ⟨rfl, rfl, rfl⟩

theorem store_of_not_full {transport : Transport}
    (hfull : ¬(transport.filled = 0 ∨ transport.filled = packetLen)) (byte : UInt8) :
    (transport.store byte).filled = transport.filled + 1 ∧
      (transport.store byte).packet = transport.packet.set transport.filled byte ∧
      (transport.store byte).synchronized = transport.synchronized := by
  unfold store
  rw [dif_neg hfull]
  exact ⟨rfl, rfl, rfl⟩

/-- Where a packet begins, the receiver writes the sync byte. -/
theorem take_store_one {transport : Transport}
    (hfull : transport.filled = 0 ∨ transport.filled = packetLen) (byte : UInt8) :
    (transport.store byte).packet.take 1 = [sync] := by
  have hlength := transport.length_eq
  rw [(store_of_full hfull byte).2.1]
  cases hpacket : transport.packet with
  | nil =>
    rw [hpacket] at hlength
    cases hlength
  | cons head rest => rfl

theorem take_store {transport : Transport}
    (hfull : ¬(transport.filled = 0 ∨ transport.filled = packetLen)) (byte : UInt8) :
    (transport.store byte).packet.take (transport.filled + 1) =
      transport.packet.take transport.filled ++ [byte] := by
  have hlt : transport.filled < transport.packet.length := by
    have := transport.filled_le
    have := transport.length_eq
    omega
  rw [(store_of_not_full hfull byte).2.1, List.take_add_one, List.take_set_of_le le_rfl]
  simp [hlt]

/-- After a packet's last byte the next byte is its check, and another packet begins with it. -/
theorem step_full {transport : Transport} {position : ℕ} {byte : UInt8} {stream : List UInt8}
    {left : List TransportPacket} (hawaits : Awaits transport position (byte :: stream) left)
    (hfull : transport.filled = packetLen) :
    ∃ rest, left.map (·.bytes) = (transport.check byte).1 ++ rest.map (·.bytes) ∧
      (transport.check byte).2 = 0 ∧ Awaits (transport.store byte) (position + 1) stream rest := by
  obtain ⟨hfilled, -, hsync⟩ := store_of_full (.inr hfull) byte
  have hmod : 1 % packetLen = (position + 1) % packetLen := by
    have := hawaits.filled_mod
    rw [hfull] at this
    unfold packetLen at *
    omega
  cases hawaits.pending with
  | inl hended => exact absurd hended.2 (List.cons_ne_nil _ _)
  | inr hpacket =>
    obtain ⟨packet, packets, hleft, htake, hstream⟩ := hpacket
    rw [hfull, ← transport.length_eq, List.take_length, transport.length_eq, ← packet.length_eq,
      List.take_length] at htake
    rw [hfull, ← packet.length_eq, List.drop_length, List.nil_append] at hstream
    refine ⟨packets, ?_⟩
    cases packets with
    | nil =>
      rw [adapted, List.cons.injEq] at hstream
      have hcheck : transport.check byte = ([packet.bytes], 0) := by
        unfold check
        rw [if_pos hfull, htake, if_pos hstream.1.symm]
      rw [hcheck, hleft]
      refine ⟨rfl, rfl, ?_, ?_, ?_, .inl ⟨rfl, hstream.2⟩⟩
      · rw [hsync, hawaits.synchronized]
      · omega
      · rw [hfilled, hmod]
    | cons next packets =>
      rw [adapted, List.cons.injEq] at hstream
      have hcheck : transport.check byte = ([packet.bytes], 0) := by
        unfold check
        rw [if_pos hfull, htake, if_pos hstream.1.symm]
      rw [hcheck, hleft]
      refine ⟨rfl, rfl, ?_, ?_, ?_, .inr ⟨next, packets, rfl, ?_, ?_⟩⟩
      · rw [hsync, hawaits.synchronized]
      · omega
      · rw [hfilled, hmod]
      · rw [hfilled, take_store_one (.inr hfull), take_one]
      · rw [hfilled, hstream.2]

theorem step_inside {transport : Transport} {position : ℕ} {byte : UInt8} {stream : List UInt8}
    {left : List TransportPacket} (hawaits : Awaits transport position (byte :: stream) left)
    (hfull : transport.filled ≠ packetLen) :
    ∃ rest, left.map (·.bytes) = (transport.check byte).1 ++ rest.map (·.bytes) ∧
      (transport.check byte).2 = 0 ∧ Awaits (transport.store byte) (position + 1) stream rest := by
  have hinside : ¬(transport.filled = 0 ∨ transport.filled = packetLen) := by
    have := hawaits.filled_pos
    omega
  obtain ⟨hfilled, -, hsync⟩ := store_of_not_full hinside byte
  have hcheck : transport.check byte = ([], 0) := by
    unfold check
    rw [if_neg hfull]
  refine ⟨left, by rw [hcheck]; rfl, by rw [hcheck], ?_, ?_, ?_, ?_⟩
  · rw [hsync, hawaits.synchronized]
  · omega
  · rw [hfilled, Nat.add_mod, hawaits.filled_mod, ← Nat.add_mod]
  cases hawaits.pending with
  | inl hended => exact absurd hended.2 (List.cons_ne_nil _ _)
  | inr hpacket =>
    obtain ⟨packet, packets, hleft, htake, hstream⟩ := hpacket
    have hlt : transport.filled < packet.bytes.length := by
      have := transport.filled_le
      have := packet.length_eq
      omega
    rw [List.drop_eq_getElem_cons hlt, List.cons_append, List.cons.injEq] at hstream
    refine .inr ⟨packet, packets, hleft, ?_, ?_⟩
    · rw [hfilled, take_store hinside, htake, hstream.1, List.take_append_getElem hlt]
    · rw [hfilled, hstream.2]

/-- One byte of the stream. -/
theorem step_awaits {transport : Transport} {position : ℕ} {byte : UInt8} {stream : List UInt8}
    {left : List TransportPacket} (hawaits : Awaits transport position (byte :: stream) left) :
    ∃ rest, left.map (·.bytes) = (transport.check byte).1 ++ rest.map (·.bytes) ∧
      (transport.check byte).2 = 0 ∧ Awaits (transport.store byte) (position + 1) stream rest := by
  by_cases hfull : transport.filled = packetLen
  · exact step_full hawaits hfull
  · exact step_inside hawaits hfull

theorem pushBytes_awaits (field : List UInt8) {transport : Transport} {position : ℕ}
    {stream : List UInt8} {left : List TransportPacket}
    (hawaits : Awaits transport position (field ++ stream) left) :
    ∃ rest, left.map (·.bytes) = (transport.pushBytes field).2.1 ++ rest.map (·.bytes) ∧
      (transport.pushBytes field).2.2 = 0 ∧
      Awaits (transport.pushBytes field).1 (position + field.length) stream rest := by
  induction field generalizing transport position left with
  | nil => exact ⟨left, rfl, rfl, hawaits⟩
  | cons byte field ih =>
    obtain ⟨middle, hmiddle, hzero, hnext⟩ := step_awaits hawaits
    obtain ⟨rest, hrest, hzero', hlast⟩ := ih hnext
    refine ⟨rest, ?_, ?_, ?_⟩
    · rw [hmiddle, hrest, pushBytes, List.append_assoc]
    · rw [pushBytes]
      change (transport.check byte).2 + _ = 0
      rw [hzero, hzero']
    · rw [List.length_cons, Nat.add_comm field.length, ← Nat.add_assoc]
      exact hlast

/-! ## Fields -/

/-- A true header passes every check of the receiver. -/
theorem push_eq {count position : ℕ} {frame : BaseBandData} (hheaded : Headed count position frame)
    (transport : Transport) (hmod : transport.synchronized = true →
      0 < transport.filled ∧ transport.filled % packetLen = position % packetLen) :
    transport.push frame =
      match transport.start frame (frame.header.syncDistance.toNat / 8) with
      | none => (transport, [], 0)
      | some start => { transport with synchronized := true }.pushBytes (frame.field.drop start) := by
  have hdistance : frame.header.syncDistance ≠ 0xFFFF →
      frame.header.syncDistance.toNat % 8 = 0 ∧ frame.header.syncDistance.toNat / 8 < packetLen ∧
        (position + frame.header.syncDistance.toNat / 8) % packetLen = 0 := by
    intro hne
    cases hheaded.distance with
    | inl hnone => exact absurd hnone.1 hne
    | inr hfirst =>
      obtain ⟨index, -, heq, hstart, hbefore⟩ := hfirst
      have hindex : frame.header.syncDistance.toNat / 8 = index := by omega
      have hlt : index < packetLen := by
        by_contra hge
        apply hbefore (index - packetLen) (by unfold packetLen at *; omega)
        unfold packetLen at *
        omega
      rw [hindex]
      exact ⟨by omega, hlt, hstart⟩
  have hlost : ¬(transport.synchronized = true ∧ frame.header.syncDistance ≠ 0xFFFF ∧
      frame.header.syncDistance.toNat / 8 ≠ (packetLen - transport.filled) % packetLen) := by
    rintro ⟨hsync, hne, hother⟩
    have hfilled := hmod hsync
    have hle := transport.filled_le
    have hat := hdistance hne
    apply hother
    unfold packetLen at *
    omega
  unfold push
  rw [if_neg, if_neg]
  · simp only [if_neg hlost]
    cases transport.start frame (frame.header.syncDistance.toNat / 8) with
    | none => rfl
    | some start => simp only [Nat.zero_add]
  · rintro ⟨hne, hge⟩
    exact absurd hge (Nat.not_le.mpr (hdistance hne).2.1)
  · rintro (hkind | hbits | hsync | hwhole | ⟨hne, hodd⟩)
    · exact hkind hheaded.kind_eq
    · exact hbits hheaded.bits_eq
    · exact hsync hheaded.sync_eq
    · exact hwhole hheaded.whole
    · exact hodd (hdistance hne).1

/-- One field of the stream. -/
theorem push_awaits {count position : ℕ} {frame : BaseBandData} {transport : Transport}
    {stream : List UInt8} {left : List TransportPacket} (hheaded : Headed count position frame)
    (hawaits : Awaits transport position (frame.field ++ stream) left) :
    ∃ rest, left.map (·.bytes) = (transport.push frame).2.1 ++ rest.map (·.bytes) ∧
      (transport.push frame).2.2 = 0 ∧
      Awaits (transport.push frame).1 (position + frame.field.length) stream rest := by
  have hsync : { transport with synchronized := true } = transport := by
    rw [← hawaits.synchronized]
  rw [push_eq hheaded transport fun _ ↦ ⟨hawaits.filled_pos, hawaits.filled_mod⟩]
  unfold start
  simp only [hawaits.synchronized, if_true, List.drop_zero, hsync]
  exact pushBytes_awaits frame.field hawaits

theorem run_cons (transport : Transport) (frame : BaseBandData) (rest : List BaseBandData) :
    transport.run (frame :: rest) =
      ((transport.push frame).2.1 ++ ((transport.push frame).1.run rest).1,
        (transport.push frame).2.2 :: ((transport.push frame).1.run rest).2) := rfl

theorem run_awaits (frames : List BaseBandData) {count position : ℕ} {transport : Transport}
    {left : List TransportPacket} (hheaded : AllHeaded count position frames)
    (hawaits : Awaits transport position (frames.flatMap (·.field)) left) :
    (transport.run frames).1 = left.map (·.bytes) ∧ ∀ errors ∈ (transport.run frames).2, errors = 0 := by
  induction frames generalizing transport position left with
  | nil =>
    rw [hawaits.left_eq_nil]
    exact ⟨rfl, fun errors herrors ↦ absurd herrors List.not_mem_nil⟩
  | cons frame rest ih =>
    rw [List.flatMap_cons] at hawaits
    obtain ⟨middle, hmiddle, hzero, hnext⟩ := push_awaits hheaded.1 hawaits
    have hrest := ih hheaded.2 hnext
    refine ⟨?_, ?_⟩
    · rw [hmiddle, run_cons, hrest.1]
    · rw [run_cons]
      intro errors herrors
      cases List.mem_cons.mp herrors with
      | inl heq => rw [heq, hzero]
      | inr hmem => exact hrest.2 errors hmem

/-- The first byte of the stream stands for the sync byte of the first packet. -/
theorem awaits_first {carry : UInt8} {packets : List TransportPacket} {stream : List UInt8}
    (hstream : carry :: stream = adapted carry packets) :
    Awaits (({ new with synchronized := true } : Transport).store carry) 1 stream packets := by
  have hfull : ({ new with synchronized := true } : Transport).filled = 0 ∨
      ({ new with synchronized := true } : Transport).filled = packetLen := .inl rfl
  obtain ⟨hfilled, -, hsync⟩ := store_of_full hfull carry
  refine ⟨hsync, by omega, by rw [hfilled], ?_⟩
  cases packets with
  | nil =>
    rw [adapted, List.cons.injEq] at hstream
    exact .inl ⟨rfl, hstream.2⟩
  | cons packet packets =>
    rw [adapted, List.cons.injEq] at hstream
    refine .inr ⟨packet, packets, rfl, ?_, ?_⟩
    · rw [hfilled, take_store_one hfull, take_one]
    · rw [hfilled, hstream.2]

/-- A new receiver starts with the first field in which it is told of a packet. -/
theorem push_new {count : ℕ} {carry : UInt8} {packets : List TransportPacket} {frame : BaseBandData}
    {stream : List UInt8} (hheaded : Headed count 0 frame)
    (htold : frame.header.syncDistance ≠ 0xFFFF) (hstream : frame.field ++ stream = adapted carry packets) :
    ∃ rest, packets.map (·.bytes) = (new.push frame).2.1 ++ rest.map (·.bytes) ∧
      (new.push frame).2.2 = 0 ∧ Awaits (new.push frame).1 (0 + frame.field.length) stream rest := by
  have hstart : new.start frame (frame.header.syncDistance.toNat / 8) = some 0 := by
    have hzero : frame.header.syncDistance.toNat / 8 = 0 := by
      cases hheaded.distance with
      | inl hnone => exact absurd hnone.1 htold
      | inr hfirst =>
        obtain ⟨index, -, heq, -, hbefore⟩ := hfirst
        have hindex : index = 0 := by
          by_contra hne
          exact hbefore 0 (Nat.pos_of_ne_zero hne) rfl
        omega
    unfold start
    rw [hzero, if_neg (show ¬(new.synchronized = true) from Bool.false_ne_true), if_neg]
    rintro (hmax | hshort)
    · exact htold hmax
    · exact hheaded.field_ne (List.eq_nil_of_length_eq_zero (Nat.le_zero.mp hshort))
  rw [push_eq hheaded new fun hsync ↦ absurd hsync Bool.false_ne_true, hstart]
  simp only [List.drop_zero]
  cases hfield : frame.field with
  | nil => exact absurd hfield hheaded.field_ne
  | cons byte field =>
    rw [hfield, List.cons_append] at hstream
    have hbyte : byte = carry := by
      cases packets with
      | nil => exact (List.cons.inj hstream).1
      | cons packet packets => exact (List.cons.inj hstream).1
    rw [hbyte] at hstream ⊢
    obtain ⟨rest, hrest, hzero, hlast⟩ := pushBytes_awaits field (awaits_first hstream)
    have hcheck : ({ new with synchronized := true } : Transport).check carry = ([], 0) := rfl
    refine ⟨rest, ?_, ?_, ?_⟩
    · rw [hrest, pushBytes, hcheck]
      rfl
    · rw [pushBytes, hcheck]
      exact (Nat.zero_add _).trans hzero
    · rw [List.length_cons, Nat.zero_add, Nat.add_comm]
      exact hlast

/-- A receiver that is told of no packet in its first field gives nothing. -/
theorem push_untold {count : ℕ} {frame : BaseBandData} (hheaded : Headed count 0 frame)
    (htold : frame.header.syncDistance = 0xFFFF) : new.push frame = (new, [], 0) := by
  have hstart : new.start frame (frame.header.syncDistance.toNat / 8) = none := by
    unfold start
    rw [if_neg (show ¬(new.synchronized = true) from Bool.false_ne_true), if_pos (.inl htold)]
  rw [push_eq hheaded new fun hsync ↦ absurd hsync Bool.false_ne_true, hstart]

end Transport

/-- A new receiver gives the packets of a stream that is cut into headed fields, all of them and in
order, and it counts no error. -/
theorem transport_recovered (carry : UInt8) (packets : List TransportPacket) (frames : List BaseBandData)
    (hcut : frames.flatMap (·.field) = adapted carry packets)
    (hheaded : AllHeaded packets.length 0 frames) :
    (Transport.new.run frames).1 = packets.map (·.bytes) ∧
      ∀ errors ∈ (Transport.new.run frames).2, errors = 0 := by
  cases frames with
  | nil => exact absurd hcut.symm (adapted_ne_nil carry packets)
  | cons frame rest =>
    rw [List.flatMap_cons] at hcut
    rw [Transport.run_cons]
    by_cases htold : frame.header.syncDistance = 0xFFFF
    · -- No packet starts in the first field, so that there is none.
      have hnone : packets = [] := by
        cases hheaded.1.distance with
        | inl hnone =>
          have hle := hnone.2 0 (List.length_pos_iff.mpr hheaded.1.field_ne) rfl
          unfold packetLen at hle
          exact List.eq_nil_of_length_eq_zero (by omega)
        | inr hfirst =>
          obtain ⟨index, -, heq, -⟩ := hfirst
          have hmax : (0xFFFF : UInt16).toNat = 65535 := rfl
          rw [htold] at heq
          omega
      have hrest : rest = [] := by
        have hlength := congrArg List.length hcut
        have hpos := List.length_pos_iff.mpr hheaded.1.field_ne
        rw [hnone, adapted, List.length_append, List.length_singleton] at hlength
        cases rest with
        | nil => rfl
        | cons next rest =>
          have hpos' := List.length_pos_iff.mpr hheaded.2.1.field_ne
          rw [List.flatMap_cons, List.length_append] at hlength
          omega
      rw [Transport.push_untold hheaded.1 htold, hnone, hrest]
      exact ⟨rfl, fun errors herrors ↦ List.mem_singleton.mp herrors⟩
    · obtain ⟨middle, hmiddle, hzero, hnext⟩ := Transport.push_new hheaded.1 htold hcut
      have hrest := Transport.run_awaits rest hheaded.2 hnext
      refine ⟨by rw [hmiddle, hrest.1], ?_⟩
      intro errors herrors
      cases List.mem_cons.mp herrors with
      | inl heq => rw [heq, hzero]
      | inr hmem => exact hrest.2 errors hmem

def blankPacket : TransportPacket where
  bytes := sync :: List.replicate 187 0
  length_eq := Dvbs.emptyPacket.length_eq
  head_eq := Dvbs.emptyPacket.head_eq

theorem transport_recovered_split :
    (Transport.new.run [⟨{ dataFieldBits := 16 }, [0, 0]⟩,
      ⟨{ dataFieldBits := 1496, syncDistance := 1488 },
        List.replicate 186 0 ++ [crc8 (List.replicate 187 0)]⟩]).1 = [blankPacket.bytes] := by
  apply (transport_recovered 0 [blankPacket] _ (congrArg ([0, 0] ++ ·) (List.append_nil _)) _).1
  have hlast : (List.replicate 186 0 ++ [crc8 (List.replicate 187 0)]).length = 187 := by
    rw [List.length_append, List.length_replicate, List.length_singleton]
  have hfirst : Headed 1 0 ⟨{ dataFieldBits := 16 }, [0, 0]⟩ := by
    refine ⟨List.cons_ne_nil _ _, rfl, rfl, rfl, rfl, .inr ⟨0, Nat.zero_lt_succ _, rfl, rfl, ?_⟩⟩
    exact fun _ hbefore ↦ absurd hbefore (Nat.not_lt_zero _)
  have hsecond : Headed 1 2 ⟨{ dataFieldBits := 1496, syncDistance := 1488 },
      List.replicate 186 0 ++ [crc8 (List.replicate 187 0)]⟩ := by
    refine ⟨fun hnil ↦ ?_, rfl, rfl, rfl, rfl, .inr ⟨186, ?_, rfl, rfl, ?_⟩⟩
    · exact List.cons_ne_nil _ _ (List.append_eq_nil_iff.mp hnil).2
    · exact lt_of_lt_of_eq (by decide) hlast.symm
    · intro before hbefore
      change (2 + before) % 188 ≠ 0
      omega
  exact ⟨hfirst, hsecond, trivial⟩

end Sdrmm.Dvbs2
