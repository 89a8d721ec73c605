import Sdrmm.Channels.DabPacket
import Sdrmm.Dsp.Rs256Errata

/-!
# Cuts and corrected errors leave no trace

Both levels of the decoder are parsers of a stream, so that it does not matter how the stream is cut.  A
block whose rows are within the distance of the code is corrected to the block that was sent, and what
comes out is what the packets of that block give.
-/

namespace Sdrmm.DabPacket

open Sdrmm.Rs256

/-! ## The configuration stays -/

namespace Decoder

theorem deliver_config (decoder : Decoder) (bytes : List UInt8) :
    (decoder.deliver bytes).1.config = decoder.config := by
  unfold deliver
  split_ifs <;> rfl

theorem closeGroup_config (decoder : Decoder) (group : List UInt8) :
    (decoder.closeGroup group).1.config = decoder.config := by
  unfold closeGroup
  dsimp only
  split_ifs
  · split
    · rfl
    · rfl
    · rfl
  · split
    · exact deliver_config _ _
    · rfl
    · rfl

theorem join_config (decoder : Decoder) (first last : Bool) (payload : List UInt8) :
    (decoder.join first last payload).1.config = decoder.config := by
  have hstart : (if first then { decoder with group := [], active := true } else decoder).config =
      decoder.config := by
    split_ifs <;> rfl
  unfold join
  dsimp only
  generalize (if first then { decoder with group := [], active := true } else decoder) = started at *
  split_ifs
  · exact hstart
  · exact hstart
  · exact (closeGroup_config _ _).trans hstart
  · exact hstart

theorem packet_config (decoder : Decoder) (bytes : List UInt8) :
    (decoder.packet bytes).1.config = decoder.config := by
  unfold packet
  dsimp only
  split_ifs
  · rfl
  · rfl
  · rfl
  -- with groups or without, behind a gap or not
  · exact deliver_config _ _
  · exact deliver_config _ _
  · exact join_config _ _ _ _
  · exact join_config _ _ _ _

theorem packetStep_config {decoder next : Decoder} {bytes : List UInt8} {taken : ℕ} {out : List Event}
    (hstep : packetParser.step decoder bytes = some (taken, next, out)) :
    next.config = decoder.config := by
  cases bytes with
  | nil => cases hstep
  | cons first bytes =>
    simp only [packetParser, packetStep, Option.ite_none_left_eq_some, Option.some.injEq,
      Prod.mk.injEq] at hstep
    obtain ⟨-, -, hpacket⟩ := hstep
    have hnext : next = (decoder.anyPacket ((first :: bytes).take (lengthOf first))).1 := by
      rw [hpacket]
    rw [hnext]
    unfold anyPacket
    split_ifs
    · rfl
    · rfl
    · exact packet_config _ _

theorem drain_config (decoder : Decoder) (bytes : List UInt8) :
    (packetParser.drain decoder bytes).1.config = decoder.config :=
  packetParser.drain_keeps (fun hkept hstep ↦ (packetStep_config hstep).trans hkept) rfl bytes

end Decoder

namespace Stream

theorem packets_config (stream : Stream) (bytes : List UInt8) :
    (stream.packets bytes).1.config = stream.config := Decoder.drain_config _ _

theorem fecStep_config {stream next : Stream} {bytes : List UInt8} {taken : ℕ} {out : List Event}
    (hstep : fecParser.step stream bytes = some (taken, next, out)) : next.config = stream.config := by
  simp only [fecParser, fecStep, Option.ite_none_left_eq_some] at hstep
  obtain ⟨-, hstep⟩ := hstep
  split_ifs at hstep
  · rw [← (Prod.mk.inj (Prod.mk.inj (Option.some.inj hstep)).2).1]
  · rw [← (Prod.mk.inj (Prod.mk.inj (Option.some.inj hstep)).2).1]
  · cases hrows : correctedRows bytes with
    | some rows =>
      rw [hrows] at hstep
      have hnext : next = ({ stream with fecAligned := true }.packets (interleave rows)).1 := by
        rw [(Prod.mk.inj (Option.some.inj hstep)).2]
      rw [hnext]
      exact packets_config _ _
    | none =>
      rw [hrows] at hstep
      rw [← (Prod.mk.inj (Prod.mk.inj (Option.some.inj hstep)).2).1]

theorem drain_config (stream : Stream) (bytes : List UInt8) :
    (fecParser.drain stream bytes).1.config = stream.config :=
  fecParser.drain_keeps (fun hkept hstep ↦ (fecStep_config hstep).trans hkept) rfl bytes

end Stream

/-! ## Cuts -/

namespace PacketData

variable {data : PacketData}

theorem run_cons (chunk : List UInt8) (chunks : List (List UInt8)) :
    data.run (chunk :: chunks) = (((data.push chunk).1.run chunks).1,
      (data.push chunk).2 ++ ((data.push chunk).1.run chunks).2) := rfl

theorem run_plain (haddress : data.config.address ≠ 0) (hfec : data.config.fec = false)
    (chunks : List (List UInt8)) :
    data.run chunks =
      ({ data with
          toDecoder := (Decoder.packetParser.feed data.toDecoder data.packetPending chunks).1
          packetPending := (Decoder.packetParser.feed data.toDecoder data.packetPending chunks).2.2 },
        (Decoder.packetParser.feed data.toDecoder data.packetPending chunks).2.1) := by
  induction chunks generalizing data with
  | nil => rfl
  | cons chunk chunks ih =>
    have hconfig := Decoder.drain_config data.toDecoder (data.packetPending ++ chunk)
    have hpush : data.push chunk = ({ data with toStream := (data.packets chunk).1 },
        (data.packets chunk).2) := by
      rw [push, if_neg haddress, hfec]
      rfl
    have hnext : (data.push chunk).1.config = data.config := by
      rw [hpush]
      exact hconfig
    rw [run_cons, ih (by rw [hnext]; exact haddress) (by rw [hnext]; exact hfec), hpush]
    rfl

theorem run_fec (haddress : data.config.address ≠ 0) (hfec : data.config.fec = true)
    (chunks : List (List UInt8)) :
    data.run chunks =
      ({ toStream := (Stream.fecParser.feed data.toStream data.pending chunks).1
         pending := (Stream.fecParser.feed data.toStream data.pending chunks).2.2 },
        (Stream.fecParser.feed data.toStream data.pending chunks).2.1) := by
  induction chunks generalizing data with
  | nil => rfl
  | cons chunk chunks ih =>
    have hconfig := Stream.drain_config data.toStream (data.pending ++ chunk)
    have hpush : data.push chunk =
        ({ toStream := (Stream.fecParser.drain data.toStream (data.pending ++ chunk)).1
           pending := (Stream.fecParser.drain data.toStream (data.pending ++ chunk)).2.2 },
          (Stream.fecParser.drain data.toStream (data.pending ++ chunk)).2.1) := by
      rw [push, if_neg haddress, hfec]
      rfl
    have hnext : (data.push chunk).1.config = data.config := by
      rw [hpush]
      exact hconfig
    rw [run_cons, ih (by rw [hnext]; exact haddress) (by rw [hnext]; exact hfec), hpush]
    rfl

/-- It does not matter how the stream is cut. -/
theorem run_new_eq {config : Config} (haddress : config.address ≠ 0) {first second : List (List UInt8)}
    (hflatten : first.flatten = second.flatten) : (new config).run first = (new config).run second := by
  cases hfec : config.fec with
  | false =>
    have hempty := Decoder.packetParser.drain_nil (new config).toDecoder
    rw [run_plain haddress hfec, run_plain haddress hfec,
      show (new config).packetPending = [] from rfl,
      Decoder.packetParser.feed_eq _ _ _ hempty, Decoder.packetParser.feed_eq _ _ _ hempty, hflatten]
  | true =>
    have hempty := Stream.fecParser.drain_nil (new config).toStream
    rw [run_fec haddress hfec, run_fec haddress hfec, show (new config).pending = [] from rfl,
      Stream.fecParser.feed_eq _ _ _ hempty, Stream.fecParser.feed_eq _ _ _ hempty, hflatten]

end PacketData

/-! ## Errors -/

/-- The data of a row. -/
def rowData (block : List UInt8) (row : ℕ) : List UInt8 :=
  (List.range 188).map fun column ↦ block.getD (column * 12 + row) 0

/-- A row with the parity that a sender adds. -/
def codeword (block : List UInt8) (row : ℕ) : List UInt8 := rs.encode (rowData block row) []

/-- The parity of all rows, as the packets behind a block carry it, and zeros behind it. -/
def parityByte (block : List UInt8) (index : ℕ) : UInt8 :=
  if index < 192 then (codeword block (index % 12)).getD (188 + index / 12) 0 else 0

/-- A byte of the nine packets behind a block: two of a header, 22 of parity. -/
def fecByte (block : List UInt8) (index : ℕ) : UInt8 :=
  if index % 24 = 0 then UInt8.ofNat (4 * (index / 24) + 3)
  else if index % 24 = 1 then 254
  else parityByte block (index / 24 * 22 + (index % 24 - 2))

/-- A block with the packets behind it. -/
def sentFrame (block : List UInt8) : List UInt8 := block ++ (List.range 216).map (fecByte block)

section Sent

variable {block : List UInt8}

theorem length_codeword (block : List UInt8) (row : ℕ) : (codeword block row).length = 204 := by
  have hlength := (encode_systematic dvbPrimitive_isPrimitive 0 16 (rowData block row)).1
  rw [rowData, List.length_map, List.length_range] at hlength
  exact hlength

theorem take_codeword (block : List UInt8) (row : ℕ) : (codeword block row).take 188 = rowData block row := by
  have htake := (encode_systematic dvbPrimitive_isPrimitive 0 16 (rowData block row)).2
  have hlength : (rowData block row).length = 188 := by rw [rowData, List.length_map, List.length_range]
  rw [hlength] at htake
  exact htake

theorem getD_sentFrame (hblock : block.length = application) {index : ℕ} (hindex : index < 216) :
    (sentFrame block).getD (application + index) 0 = fecByte block index := by
  rw [sentFrame, List.getD_append_right _ _ _ _ (by omega), hblock, Nat.add_sub_cancel_left,
    List.getD_eq_getElem?_getD, List.getElem?_map, List.getElem?_range hindex]
  rfl

/-- The rows of what a sender sends are codewords. -/
theorem word_sentFrame (hblock : block.length = application) {row : ℕ} (hrow : row < 12) :
    word (sentFrame block) row = codeword block row := by
  have hdata : ((List.range 188).map fun column ↦ (sentFrame block).getD (column * 12 + row) 0) =
      (codeword block row).take 188 := by
    rw [take_codeword]
    apply List.map_congr_left
    intro column hcolumn
    rw [List.mem_range] at hcolumn
    rw [sentFrame, List.getD_append _ _ _ _ (by rw [hblock, application]; omega)]
  have hparity : ((List.range 16).map fun column ↦ (sentFrame block).getD
      (application + (column * 12 + row) / 22 * 24 + 2 + (column * 12 + row) % 22) 0) =
      (codeword block row).drop 188 := by
    apply List.ext_getElem
    · rw [List.length_map, List.length_range, List.length_drop, length_codeword]
    · intro column hcolumn hdrop
      rw [List.length_map, List.length_range] at hcolumn
      rw [List.getElem_map, List.getElem_range, List.getElem_drop]
      have hat : application + (column * 12 + row) / 22 * 24 + 2 + (column * 12 + row) % 22 =
          application + ((column * 12 + row) / 22 * 24 + 2 + (column * 12 + row) % 22) := by omega
      rw [hat, getD_sentFrame hblock (by omega), fecByte, if_neg (by omega), if_neg (by omega),
        parityByte, if_pos (by omega)]
      have hindex : ((column * 12 + row) / 22 * 24 + 2 + (column * 12 + row) % 22) / 24 * 22 +
          (((column * 12 + row) / 22 * 24 + 2 + (column * 12 + row) % 22) % 24 - 2) =
          column * 12 + row := by omega
      rw [hindex, show (column * 12 + row) % 12 = row by omega,
        show (column * 12 + row) / 12 = column by omega, List.getD_eq_getElem _ _ (by
          rw [length_codeword]; omega)]
  rw [word, hdata, hparity, List.take_append_drop]

/-- The bytes that differ in a row. -/
def altered (block received : List UInt8) (row : ℕ) : List ℕ :=
  errorIndices (word (sentFrame block) row) (word received row) []

theorem correct_word {received : List UInt8} (hblock : block.length = application) {row : ℕ}
    (hrow : row < 12) (haltered : (altered block received row).length ≤ 8) :
    correct (word received row) = some (codeword block row) := by
  have hdata : (rowData block row).length = 188 := by rw [rowData, List.length_map, List.length_range]
  have hword : (word received row).length = 204 := by
    rw [word, List.length_append, List.length_map, List.length_map, List.length_range, List.length_range]
  rw [altered, word_sentFrame hblock hrow, codeword, rs] at haltered
  have hdecode := errors_within_distance dvbPrimitive_isPrimitive 0 16 (rowData block row)
    (word received row) (by rw [hdata]; decide) (by rw [hdata, hword]; rfl)
    (show 2 * _ ≤ 16 by omega)
  rw [correct, rs, hdecode]
  rfl

/-- The rows of a block make the block. -/
theorem interleave_codewords (hblock : block.length = application) :
    interleave ((List.range 12).map (codeword block)) = block := by
  apply List.ext_getElem
  · rw [interleave, List.length_map, List.length_range, hblock]
  · intro i hi hi'
    have hsmall : i < 2256 := by
      rw [hblock] at hi'
      exact hi'
    have hrow : ((List.range 12).map (codeword block)).getD (i % 12) [] = codeword block (i % 12) := by
      rw [List.getD_eq_getElem?_getD, List.getElem?_map, List.getElem?_range (by omega)]
      rfl
    have hbyte : (codeword block (i % 12)).getD (i / 12) 0 = (rowData block (i % 12)).getD (i / 12) 0 := by
      rw [← take_codeword, List.getD_eq_getElem?_getD, List.getD_eq_getElem?_getD,
        List.getElem?_take_of_lt (by omega)]
    simp only [interleave, List.getElem_map, List.getElem_range]
    rw [hrow, hbyte, rowData, List.getD_eq_getElem?_getD, List.getElem?_map,
      List.getElem?_range (by omega), Option.map_some, Option.getD_some,
      show i / 12 * 12 + i % 12 = i by omega, List.getD_eq_getElem _ _ hi']

theorem mapM_some {β γ : Type} {f : β → Option γ} {g : β → γ} {items : List β}
    (hsome : ∀ item ∈ items, f item = some (g item)) : items.mapM f = some (items.map g) := by
  induction items with
  | nil => rfl
  | cons item items ih =>
    obtain ⟨hitem, hitems⟩ := List.forall_mem_cons.mp hsome
    rw [List.mapM_cons, hitem, ih hitems]
    rfl

/-- A block within the distance of the code gives what its packets give. -/
theorem fecStep_received (stream : Stream) {received : List UInt8} (hblock : block.length = application)
    (hreceived : received.length = fecFrame)
    (haltered : ∀ row < 12, (altered block received row).length ≤ 8) (hheaders : 7 ≤ headers received) :
    stream.fecStep received = some (fecFrame, { stream with fecAligned := true }.packets block) := by
  have hrows : correctedRows received = some ((List.range 12).map (codeword block)) := by
    rw [correctedRows, List.mapM_map]
    apply mapM_some
    intro row hrow
    rw [List.mem_range] at hrow
    exact correct_word hblock hrow (haltered row hrow)
  rw [Stream.fecStep, if_neg (by omega), if_neg (by omega), hrows]
  dsimp only
  rw [interleave_codewords hblock]

end Sent

theorem headers_sentFrame {block : List UInt8} (hblock : block.length = application) :
    headers (sentFrame block) = 9 := by
  have hall : ∀ i ∈ List.range 9, ((sentFrame block).getD (application + i * 24) 0 ==
      UInt8.ofNat (4 * i + 3) && (sentFrame block).getD (application + i * 24 + 1) 0 == 254) = true := by
    intro i hi
    rw [List.mem_range] at hi
    rw [Nat.add_assoc, getD_sentFrame hblock (by omega), getD_sentFrame hblock (by omega), fecByte, fecByte,
      if_pos (by omega), if_neg (by omega), if_pos (by omega), Nat.mul_div_cancel _ (by decide),
      beq_self_eq_true, beq_self_eq_true]
    rfl
  exact List.countP_eq_length.mpr hall

/-- However a stream is cut, the same comes out.  With error correction, a block with at most eight bytes
altered in each row and at least seven of nine headers intact gives, however it is cut, what the packets of
the block that was sent give. -/
theorem cuts_and_errors_leave_no_trace (config : Config) (haddress : config.address ≠ 0) :
    (∀ first second : List (List UInt8), first.flatten = second.flatten →
      (PacketData.new config).run first = (PacketData.new config).run second) ∧
    (config.fec = true → ∀ (stream : Stream) (block : List UInt8) (chunks : List (List UInt8)),
      stream.config = config → block.length = application → chunks.flatten.length = fecFrame →
      (∀ row < 12, (altered block chunks.flatten row).length ≤ 8) → 7 ≤ headers chunks.flatten →
      (({ toStream := stream } : PacketData).run chunks).2 = (stream.packets block).2) := by
  constructor
  · intro first second hflatten
    exact PacketData.run_new_eq haddress hflatten
  · intro hfec stream block chunks hconfig hblock hreceived haltered hheaders
    have hstep : Stream.fecParser.step stream chunks.flatten = _ :=
      fecStep_received stream hblock hreceived haltered hheaders
    have hrest : chunks.flatten.drop fecFrame = [] := List.drop_eq_nil_of_le (by omega)
    rw [PacketData.run_fec (by rw [hconfig]; exact haddress) (by rw [hconfig]; exact hfec),
      Stream.fecParser.feed_eq _ _ _ (Stream.fecParser.drain_nil stream)]
    simp only [List.nil_append]
    rw [ChunkParser.drain_some hstep, hrest, ChunkParser.drain_nil, List.append_nil]
    rfl

/-- A service with error correction. -/
def protectedService : Config where
  address := 17
  kind := 5
  dataGroups := true
  fec := true

/-- A block whose first byte is altered and which comes in two chunks. -/
theorem cuts_and_errors_leave_no_trace_altered :
    (({ config := protectedService } : PacketData).run
        [((sentFrame (List.replicate application 0)).set 0 9).take 100,
          ((sentFrame (List.replicate application 0)).set 0 9).drop 100]).2 =
      (({ config := protectedService } : Stream).packets (List.replicate application 0)).2 := by
  have hblock : (List.replicate application (0 : UInt8)).length = application := List.length_replicate
  have hsent : (sentFrame (List.replicate application 0)).length = fecFrame := by
    rw [sentFrame, List.length_append, hblock, List.length_map, List.length_range]
    rfl
  generalize hframe : sentFrame (List.replicate application 0) = sent at hsent
  have hflatten : [(sent.set 0 9).take 100, (sent.set 0 9).drop 100].flatten = sent.set 0 9 := by
    rw [List.flatten_cons, List.flatten_singleton, List.take_append_drop]
  have hsame : ∀ i ≠ 0, (sent.set 0 9).getD i 0 = sent.getD i 0 := by
    intro i hi
    rw [List.getD_eq_getElem?_getD, List.getElem?_set_ne (Ne.symm hi), List.getD_eq_getElem?_getD]
  apply (cuts_and_errors_leave_no_trace protectedService (by decide)).2 rfl _ _ _ rfl hblock
  · rw [hflatten, List.length_set, hsent]
  · intro row _
    rw [hflatten, altered, hframe]
    -- behind the first byte of a row, nothing is altered
    have hrest : (word (sent.set 0 9) row).tail = (word sent row).tail := by
      have htail : ∀ bytes, (word bytes row).tail =
          ((List.range 187).map fun column ↦ bytes.getD ((column + 1) * 12 + row) 0) ++
            (List.range 16).map fun column ↦ bytes.getD
              (application + (column * 12 + row) / 22 * 24 + 2 + (column * 12 + row) % 22) 0 := by
        intro bytes
        rw [word, show List.range 188 = 0 :: (List.range 187).map Nat.succ from
          List.range_succ_eq_map, List.map_cons, List.cons_append, List.tail_cons, List.map_map]
        rfl
      rw [htail, htail]
      congr 1
      · apply List.map_congr_left
        intro column _
        exact hsame _ (by omega)
      · apply List.map_congr_left
        intro column _
        exact hsame _ (by rw [application]; omega)
    have hfirst : errorIndices (word sent row) (word (sent.set 0 9) row) [] ⊆ [0] := by
      intro index hindex
      obtain ⟨-, -, hdiffers⟩ := mem_errorIndices.mp hindex
      cases index with
      | zero => exact List.mem_cons_self
      | succ index =>
        have hsucc : ∀ bytes : List UInt8, bytes.getD (index + 1) 0 = bytes.tail.getD index 0 := by
          intro bytes
          rw [List.getD_eq_getElem?_getD, List.getD_eq_getElem?_getD, List.getElem?_tail]
        rw [hsucc, hsucc, hrest] at hdiffers
        exact absurd rfl hdiffers
    have hnodup : (errorIndices (word sent row) (word (sent.set 0 9) row) []).Nodup :=
      List.nodup_range.filter _
    have hlength := (hnodup.subperm hfirst).length_le
    rw [List.length_singleton] at hlength
    omega
  · have hheaders : headers (sent.set 0 9) = headers sent := by
      apply List.countP_congr
      intro i _
      rw [hsame _ (by rw [application]; omega), hsame _ (by rw [application]; omega)]
    rw [hflatten, hheaders, ← hframe, headers_sentFrame hblock]
    decide

end Sdrmm.DabPacket
