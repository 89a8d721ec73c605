import Mathlib.Data.List.Induction
import Sdrmm.Channels.Ts

/-!
# Units come out as they were written

The packets of the writer for one stream carry consecutive counters, so that the demultiplexer joins them
and passes over those that are repeated, whatever packets of other streams stand between.  A unit comes
out when it is complete or, where its length does not fit its field, when the next one starts.
-/

namespace Sdrmm.Ts

open Sdrmm.Dsp

/-! ## The header of a packet -/

set_option maxRecDepth 100000 in
theorem second_byte : ∀ (byte : UInt8) (start : Bool),
    ((byte &&& 0x1F) ||| (if start then 0x40 else 0x00)) &&& 0x1f = byte &&& 0x1f ∧
    ((byte &&& 0x1F) ||| (if start then 0x40 else 0x00)) &&& 0x80 = 0 ∧
    (((byte &&& 0x1F) ||| (if start then 0x40 else 0x00)) &&& 0x40 != 0) = start :=
  forall_byte (by decide)

set_option maxRecDepth 100000 in
theorem fourth_byte : ∀ counter : UInt8, counter &&& 0x0F = counter → ∀ stuffed : Bool,
    (0x10 ||| counter ||| (if stuffed then 0x20 else 0x00)) &&& 0x30 ≠ 0 ∧
    (0x10 ||| counter ||| (if stuffed then 0x20 else 0x00)) &&& 0x10 ≠ 0 ∧
    (0x10 ||| counter ||| (if stuffed then 0x20 else 0x00)) &&& 0xc0 = 0 ∧
    (0x10 ||| counter ||| (if stuffed then 0x20 else 0x00)) &&& 15 = counter ∧
    (0x10 ||| counter ||| (if stuffed then 0x20 else 0x00)) &&& 0x20 = if stuffed then 0x20 else 0 :=
  forall_byte (by decide)

set_option maxRecDepth 100000 in
theorem next_counter_ne : ∀ counter : UInt8, (counter + 1) &&& 0x0F ≠ counter :=
  forall_byte (by decide)

set_option maxRecDepth 100000 in
theorem masked_byte : ∀ byte : UInt8, byte.toNat < 32 → byte &&& 0x1f = byte :=
  forall_byte (by decide)

/-- A piece that the writer can make. -/
structure Piece.Ok (piece : Piece) : Prop where
  pid_lt : piece.pid < 0x2000
  counter : piece.counter &&& 0x0F = piece.counter
  chunk_pos : 0 < piece.chunk.length
  chunk_le : piece.chunk.length ≤ packet - 4

theorem stuffing_cases {length : ℕ} (hle : length ≤ packet - 4) :
    (length = packet - 4 ∧ Piece.stuffing length = []) ∨
      (length + 1 = packet - 4 ∧ Piece.stuffing length = [0]) ∨
      ∃ count, length + count + 2 = packet - 4 ∧
        Piece.stuffing length = UInt8.ofNat (count + 1) :: 0x00 :: List.replicate count 0xFF := by
  unfold Piece.stuffing
  split
  · next hcount => exact .inl ⟨by omega, rfl⟩
  · next hcount => exact .inr (.inl ⟨by omega, rfl⟩)
  · next count hcount => exact .inr (.inr ⟨count, by omega, rfl⟩)

namespace Piece

variable {piece : Piece}

theorem getD_bytes (piece : Piece) :
    piece.bytes.getD 0 0 = sync ∧
      piece.bytes.getD 1 0 =
        (UInt8.ofNat (piece.pid / 256) &&& 0x1F) ||| (if piece.start then 0x40 else 0x00) ∧
      piece.bytes.getD 2 0 = UInt8.ofNat piece.pid ∧
      piece.bytes.getD 3 0 =
        0x10 ||| piece.counter ||| (if piece.chunk.length < packet - 4 then 0x20 else 0x00) :=
  ⟨rfl, rfl, rfl, rfl⟩

theorem pidOf_bytes (hok : piece.Ok) : TsDemux.pidOf piece.bytes = piece.pid := by
  have hpid := hok.pid_lt
  have hsmall : (UInt8.ofNat (piece.pid / 256)).toNat < 32 := by
    rw [UInt8.toNat_ofNat']
    omega
  rw [TsDemux.pidOf, (getD_bytes piece).2.1, (getD_bytes piece).2.2.1,
    (second_byte _ piece.start).1, masked_byte _ hsmall]
  exact be16_toBe16 (by omega)

theorem drop_bytes (piece : Piece) :
    piece.bytes.drop (4 + (stuffing piece.chunk.length).length) = piece.chunk := by
  rw [bytes, List.append_assoc, List.drop_append, List.drop_eq_nil_of_le (Nat.le_add_right 4 _),
    List.nil_append]
  show List.drop (4 + _ - 4) _ = _
  rw [Nat.add_sub_cancel_left, List.drop_left]

/-- The field that fills a packet up is read as one that says nothing. -/
theorem adaptation_spec (hok : piece.Ok) :
    TsDemux.payloadOffset piece.bytes = some (4 + (stuffing piece.chunk.length).length) ∧
      TsDemux.restarts piece.bytes = false ∧
      4 + (stuffing piece.chunk.length).length < packet := by
  have hpacket : packet = 188 := rfl
  have hpos := hok.chunk_pos
  have hflag := (fourth_byte piece.counter hok.counter
    (decide (piece.chunk.length < packet - 4))).2.2.2.2
  simp only [decide_eq_true_eq] at hflag
  rw [← (getD_bytes piece).2.2.2] at hflag
  rw [TsDemux.payloadOffset, TsDemux.restarts, hflag]
  rcases stuffing_cases hok.chunk_le with ⟨hlength, hstuffing⟩ | ⟨hlength, hstuffing⟩ |
    ⟨count, hlength, hstuffing⟩
  · have hshort : ¬piece.chunk.length < packet - 4 := Nat.not_lt.mpr hlength.ge
    simp only [if_neg hshort, hstuffing]
    exact ⟨rfl, rfl, by decide⟩
  · have hshort : piece.chunk.length < packet - 4 := by omega
    simp only [if_pos hshort, bytes, hstuffing]
    exact ⟨rfl, rfl, by decide⟩
  · have hcount : (UInt8.ofNat (count + 1)).toNat = count + 1 := by
      rw [UInt8.toNat_ofNat']
      omega
    have hshort : piece.chunk.length < packet - 4 := by omega
    simp only [if_pos hshort, bytes, hstuffing]
    refine ⟨?_, ?_, ?_⟩
    · show (if (0x20 : UInt8) = 0 then _ else if packet < 5 + (UInt8.ofNat (count + 1)).toNat then _
        else some (5 + (UInt8.ofNat (count + 1)).toNat)) = _
      rw [if_neg (by decide), hcount, if_neg (by omega), List.length_cons, List.length_cons,
        List.length_replicate]
      exact congrArg some (by omega)
    · apply Bool.and_eq_false_imp.mpr
      intro _
      show ((0x00 : UInt8) &&& 0x80 != 0) = false
      decide
    · rw [List.length_cons, List.length_cons, List.length_replicate]
      omega

end Piece

namespace TsDemux

variable {demux : TsDemux} {piece : Piece}

/-- The packet of a piece is taken as the piece. -/
theorem push_piece (hok : piece.Ok) (hnull : piece.pid ≠ nullPid) :
    demux.push piece.bytes =
      if demux.continuity piece.pid = some (piece.counter, crc32Mpeg piece.bytes) then
        ({ demux with packets := demux.packets + 1 }.setContinuity piece.pid
          (some (piece.counter, crc32Mpeg piece.bytes)), [])
      else
        (if (demux.continuity piece.pid).any fun previous : UInt8 × UInt32 ↦ (previous.1 + 1) &&& 15 != piece.counter then
          { ({ demux with packets := demux.packets + 1 }.setContinuity piece.pid
              (some (piece.counter, crc32Mpeg piece.bytes))).forget piece.pid with
            discontinuities := increment demux.discontinuities }
        else { demux with packets := demux.packets + 1 }.setContinuity piece.pid
          (some (piece.counter, crc32Mpeg piece.bytes))).route piece.pid piece.chunk piece.start := by
  obtain ⟨hoffset, hrestarts, hlt⟩ := piece.adaptation_spec hok
  obtain ⟨-, hclear, hstart⟩ := second_byte (UInt8.ofNat (piece.pid / 256)) piece.start
  obtain ⟨hcontrol, hpayload, hplain, hcounter, -⟩ :=
    fourth_byte piece.counter hok.counter (decide (piece.chunk.length < packet - 4))
  simp only [decide_eq_true_eq] at hcontrol hpayload hplain hcounter
  obtain ⟨hsync, hsecond, -, hfourth⟩ := piece.getD_bytes
  rw [push, if_neg (fun h ↦ h hsync)]
  simp only [piece.pidOf_bytes hok, if_neg hnull, hoffset, hrestarts, hsecond, hfourth, hclear, hplain]
  rw [if_neg (by rintro (h | h); exacts [h rfl, hcontrol h]), if_neg hpayload, if_neg (fun h ↦ h rfl),
    if_neg (by omega)]
  simp only [take, hsecond, hfourth, hstart, hcounter, piece.drop_bytes]
  rfl

end TsDemux

/-! ## The pieces of many streams -/

/-- The payloads of the pieces of one stream. -/
def PesBuffer.run (pid : ℕ) (buffer : PesBuffer) : List Piece → PesBuffer × List PesUnit × ℕ
  | [] => (buffer, [], 0)
  | piece :: rest =>
      let pushed := buffer.push pid piece.chunk piece.start
      let after := run pid pushed.1 rest
      (after.1, pushed.2.1 ++ after.2.1, pushed.2.2 + after.2.2)

/-- The counters of the pieces go up from `counter`, modulo 16. -/
def Numbered (counter : UInt8) : List Piece → Prop
  | [] => True
  | piece :: rest => piece.counter = counter ∧ Numbered ((counter + 1) &&& 0x0F) rest

/-- The packets of the pieces, each with copies of it right behind. -/
def onAir (multiplex : List (Piece × ℕ)) : List (List UInt8) :=
  multiplex.flatMap fun sent ↦ List.replicate (sent.2 + 1) sent.1.bytes

/-- The pieces of one stream of the multiplex. -/
def piecesOf (pid : ℕ) (multiplex : List (Piece × ℕ)) : List Piece :=
  (multiplex.map Prod.fst).filter fun piece ↦ piece.pid = pid

theorem parsePes_pid {pid : ℕ} {data : List UInt8} {unit : PesUnit} (h : parsePes pid data = some unit) :
    unit.pid = pid := by
  simp only [parsePes, Option.ite_none_left_eq_some, Option.map_eq_some_iff] at h
  obtain ⟨-, -, -, pts, -, rfl⟩ := h
  rfl

theorem closePes_pid {pid : ℕ} {data : List UInt8} {unit : PesUnit} (h : unit ∈ (closePes pid data).1) :
    unit.pid = pid := by
  unfold closePes at h
  split at h
  · next found hfound =>
    rw [List.mem_singleton] at h
    rw [h]
    exact parsePes_pid hfound
  · cases h

/-- The unit that grows in a buffer: it is closed when it has as many bytes as it says. -/
def PesBuffer.grow (pid : ℕ) (data : List UInt8) : PesBuffer × List PesUnit × ℕ :=
  if maxPes < data.length then ({}, [], 1)
  else if 6 ≤ data.length ∧ 0 < be16 (data.getD 4 0) (data.getD 5 0) ∧
      be16 (data.getD 4 0) (data.getD 5 0) + 6 ≤ data.length then ({}, closePes pid data)
  else ({ data := data, active := true }, [], 0)

/-- What a buffer gives when the next unit starts. -/
def PesBuffer.ended (pid : ℕ) (buffer : PesBuffer) : List PesUnit × ℕ :=
  if buffer.active then closePes pid buffer.data else ([], 0)

namespace PesBuffer

variable {pid : ℕ} {buffer : PesBuffer}

theorem push_start (payload : List UInt8) :
    buffer.push pid payload true =
      ((grow pid payload).1, (buffer.ended pid).1 ++ (grow pid payload).2.1,
        (buffer.ended pid).2 + (grow pid payload).2.2) := by
  simp only [push, grow, ended, Bool.not_true, Bool.false_and, Bool.false_eq_true, if_false,
    Bool.true_and, if_true, List.length_nil, Nat.zero_add, List.nil_append]
  split
  · rw [List.append_nil]
  · split
    · rfl
    · rw [List.append_nil, Nat.add_zero]

theorem push_more (data payload : List UInt8) :
    PesBuffer.push { data := data, active := true } pid payload false = grow pid (data ++ payload) := by
  simp only [push, grow, Bool.not_true, Bool.and_false, Bool.false_and, Bool.false_eq_true, if_false,
    List.length_append, List.nil_append, Nat.zero_add]

theorem grow_pid {data : List UInt8} {unit : PesUnit} (h : unit ∈ (grow pid data).2.1) :
    unit.pid = pid := by
  unfold grow at h
  split at h
  · cases h
  · split at h
    · exact closePes_pid h
    · cases h

theorem push_pid {payload : List UInt8} {start : Bool} {unit : PesUnit}
    (h : unit ∈ (buffer.push pid payload start).2.1) : unit.pid = pid := by
  cases start with
  | true =>
    rw [push_start, List.mem_append] at h
    rcases h with h | h
    · unfold ended at h
      split at h
      · exact closePes_pid h
      · cases h
    · exact grow_pid h
  | false =>
    rcases buffer with ⟨data, active⟩
    cases active with
    | true =>
      rw [push_more] at h
      exact grow_pid h
    | false => cases h

theorem run_cons (pid : ℕ) (buffer : PesBuffer) (piece : Piece) (rest : List Piece) :
    buffer.run pid (piece :: rest) =
      (((buffer.push pid piece.chunk piece.start).1.run pid rest).1,
        (buffer.push pid piece.chunk piece.start).2.1 ++
          ((buffer.push pid piece.chunk piece.start).1.run pid rest).2.1,
        (buffer.push pid piece.chunk piece.start).2.2 +
          ((buffer.push pid piece.chunk piece.start).1.run pid rest).2.2) := rfl

end PesBuffer

namespace TsDemux

variable {demux : TsDemux} {piece : Piece}

/-- The packets of a stream are read as units: it is of the selected program and does not carry tables. -/
structure Reads (demux : TsDemux) (pid : ℕ) : Prop where
  selected : demux.isSelectedStream pid = true
  not_tables : demux.isSectionPid pid = false
  not_null : pid ≠ nullPid

/-- The demultiplexer behind a new piece and copies of it. -/
def taken (demux : TsDemux) (piece : Piece) (copies : ℕ) : TsDemux :=
  let pushed := ((demux.pes piece.pid).getD {}).push piece.pid piece.chunk piece.start
  { demux with
    packets := demux.packets + 1 + copies
    continuity :=
      Function.update demux.continuity piece.pid (some (piece.counter, crc32Mpeg piece.bytes))
    pes := Function.update demux.pes piece.pid (some pushed.1)
    dropped := increment^[pushed.2.2] demux.dropped }

section Taken

variable {copies pid : ℕ}

theorem taken_continuity_self :
    (demux.taken piece copies).continuity piece.pid = some (piece.counter, crc32Mpeg piece.bytes) :=
  Function.update_self _ _ _

theorem taken_continuity_of_ne (hpid : pid ≠ piece.pid) :
    (demux.taken piece copies).continuity pid = demux.continuity pid := Function.update_of_ne hpid _ _

theorem taken_pes_self :
    (demux.taken piece copies).pes piece.pid =
      some (((demux.pes piece.pid).getD {}).push piece.pid piece.chunk piece.start).1 :=
  Function.update_self _ _ _

theorem taken_pes_of_ne (hpid : pid ≠ piece.pid) :
    (demux.taken piece copies).pes pid = demux.pes pid := Function.update_of_ne hpid _ _

end Taken

theorem route_of_reads {pid : ℕ} {payload : List UInt8} {start : Bool} (hreads : demux.Reads pid) :
    demux.route pid payload start = demux.pushPes pid payload start := by
  rw [route, hreads.not_tables, if_neg Bool.false_ne_true, if_pos hreads.selected]

theorem push_new (hok : piece.Ok) (hreads : demux.Reads piece.pid)
    (hnext : ∀ previous ∈ demux.continuity piece.pid, (previous.1 + 1) &&& 0x0F = piece.counter) :
    demux.push piece.bytes = (demux.taken piece 0,
      (((demux.pes piece.pid).getD {}).push piece.pid piece.chunk piece.start).2.1) := by
  have hnew : demux.continuity piece.pid ≠ some (piece.counter, crc32Mpeg piece.bytes) := by
    intro hsame
    exact next_counter_ne piece.counter (hnext _ hsame)
  have hgoes : ((demux.continuity piece.pid).any fun previous : UInt8 × UInt32 ↦
      (previous.1 + 1) &&& 15 != piece.counter) = false := by
    rw [Option.any_eq_false]
    intro previous hprevious
    rw [hnext previous hprevious, bne_self_eq_false]
  rw [push_piece hok hreads.not_null, if_neg hnew, hgoes, if_neg Bool.false_ne_true]
  exact route_of_reads ⟨hreads.selected, hreads.not_tables, hreads.not_null⟩

theorem run_cons (demux : TsDemux) (bytes : List UInt8) (rest : List (List UInt8)) :
    demux.run (bytes :: rest) =
      (((demux.push bytes).1.run rest).1, (demux.push bytes).2 ++ ((demux.push bytes).1.run rest).2) := rfl

/-- Copies of the last packet of a stream are passed over. -/
theorem run_copies (hok : piece.Ok) (hnull : piece.pid ≠ nullPid) (copies : ℕ)
    (hlast : demux.continuity piece.pid = some (piece.counter, crc32Mpeg piece.bytes)) :
    demux.run (List.replicate copies piece.bytes) =
      ({ demux with packets := demux.packets + copies }, []) := by
  induction copies generalizing demux with
  | zero => rfl
  | succ copies ih =>
    have hpush : demux.push piece.bytes = ({ demux with packets := demux.packets + 1 }, []) := by
      rw [push_piece hok hnull, if_pos hlast, setContinuity, ← hlast, Function.update_eq_self]
    have hrest := @ih { demux with packets := demux.packets + 1 } hlast
    rw [List.replicate_succ, run_cons, hpush, hrest, Nat.add_comm copies, ← Nat.add_assoc]
    rfl

theorem run_new (hok : piece.Ok) (hreads : demux.Reads piece.pid)
    (hnext : ∀ previous ∈ demux.continuity piece.pid, (previous.1 + 1) &&& 0x0F = piece.counter)
    (copies : ℕ) :
    demux.run (List.replicate (copies + 1) piece.bytes) = (demux.taken piece copies,
      (((demux.pes piece.pid).getD {}).push piece.pid piece.chunk piece.start).2.1) := by
  rw [List.replicate_succ, run_cons, push_new hok hreads hnext,
    run_copies hok hreads.not_null copies taken_continuity_self, List.append_nil]
  rfl

theorem run_append (demux : TsDemux) (first second : List (List UInt8)) :
    demux.run (first ++ second) =
      (((demux.run first).1.run second).1, (demux.run first).2 ++ ((demux.run first).1.run second).2) := by
  induction first generalizing demux with
  | nil => rfl
  | cons bytes rest ih =>
    rw [List.cons_append, run_cons, ih, run_cons, List.append_assoc]

/-- Streams do not disturb each other: the units of each are those that its own pieces give. -/
theorem run_onAir (multiplex : List (Piece × ℕ)) (next : ℕ → UInt8)
    (hok : ∀ sent ∈ multiplex, sent.1.Ok) (hreads : ∀ sent ∈ multiplex, demux.Reads sent.1.pid)
    (hnext : ∀ pid, ∀ previous ∈ demux.continuity pid, (previous.1 + 1) &&& 0x0F = next pid)
    (hnumbered : ∀ pid, Numbered (next pid) (piecesOf pid multiplex))
    (hlost : ∀ pid, (((demux.pes pid).getD {}).run pid (piecesOf pid multiplex)).2.2 = 0) :
    (∀ pid, ((demux.run (onAir multiplex)).2.filter fun unit ↦ unit.pid = pid) =
        (((demux.pes pid).getD {}).run pid (piecesOf pid multiplex)).2.1) ∧
      (demux.run (onAir multiplex)).1.dropped = demux.dropped ∧
      (demux.run (onAir multiplex)).1.discontinuities = demux.discontinuities := by
  induction multiplex generalizing demux next with
  | nil => exact ⟨fun _ ↦ rfl, rfl, rfl⟩
  | cons sent rest ih =>
    rcases sent with ⟨piece, copies⟩
    have hself : piecesOf piece.pid ((piece, copies) :: rest) = piece :: piecesOf piece.pid rest :=
      List.filter_cons_of_pos (decide_eq_true rfl)
    have hother : ∀ pid, pid ≠ piece.pid →
        piecesOf pid ((piece, copies) :: rest) = piecesOf pid rest := fun pid hpid ↦
      List.filter_cons_of_neg fun h ↦ hpid (of_decide_eq_true h).symm
    have hcurrent := hnumbered piece.pid
    rw [hself] at hcurrent
    have hpushed := hlost piece.pid
    rw [hself, PesBuffer.run_cons, Nat.add_eq_zero_iff] at hpushed
    have hdropped : (demux.taken piece copies).dropped = demux.dropped := by
      show increment^[_] demux.dropped = demux.dropped
      rw [hpushed.1]
      rfl
    have hrun := run_new (hok _ List.mem_cons_self) (hreads _ List.mem_cons_self)
      (fun previous hprevious ↦ (hnext _ previous hprevious).trans hcurrent.1.symm) copies
    obtain ⟨hunits, hrest, hgaps⟩ := @ih (demux.taken piece copies)
      (Function.update next piece.pid ((piece.counter + 1) &&& 0x0F))
      (fun sent hsent ↦ hok sent (List.mem_cons_of_mem _ hsent))
      (fun sent hsent ↦ ⟨(hreads sent (List.mem_cons_of_mem _ hsent)).selected,
        (hreads sent (List.mem_cons_of_mem _ hsent)).not_tables,
        (hreads sent (List.mem_cons_of_mem _ hsent)).not_null⟩)
      (by
        intro pid previous hprevious
        by_cases hpid : pid = piece.pid
        · subst hpid
          rw [Function.update_self]
          rw [taken_continuity_self, Option.mem_some_iff] at hprevious
          rw [← hprevious]
        · rw [Function.update_of_ne hpid]
          rw [taken_continuity_of_ne hpid] at hprevious
          exact hnext pid previous hprevious)
      (by
        intro pid
        by_cases hpid : pid = piece.pid
        · subst hpid
          rw [Function.update_self, hcurrent.1]
          exact hcurrent.2
        · rw [Function.update_of_ne hpid, ← hother pid hpid]
          exact hnumbered pid)
      (by
        intro pid
        by_cases hpid : pid = piece.pid
        · subst hpid
          rw [taken_pes_self]
          exact hpushed.2
        · rw [taken_pes_of_ne hpid, ← hother pid hpid]
          exact hlost pid)
    have hsplit : onAir ((piece, copies) :: rest) =
        List.replicate (copies + 1) piece.bytes ++ onAir rest := List.flatMap_cons
    rw [hsplit, run_append, hrun]
    refine ⟨?_, hrest.trans hdropped, hgaps⟩
    intro pid
    rw [List.filter_append, hunits pid]
    by_cases hpid : pid = piece.pid
    · subst hpid
      rw [hself, PesBuffer.run_cons, taken_pes_self, Option.getD_some, List.filter_eq_self.mpr]
      intro unit hunit
      exact decide_eq_true (PesBuffer.push_pid hunit)
    · rw [hother pid hpid, taken_pes_of_ne hpid, List.filter_eq_nil_iff.mpr, List.nil_append]
      intro unit hunit hsame
      exact hpid ((of_decide_eq_true hsame).symm.trans (PesBuffer.push_pid hunit))

end TsDemux

end Sdrmm.Ts
