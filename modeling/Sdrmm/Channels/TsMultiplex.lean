import Sdrmm.Channels.TsPes
import Sdrmm.Channels.TsTables

/-!
# The units of a multiplex

What the writer makes of a unit is read back as that unit.  So the pieces of the units of one stream give
the units again, in their order; with the streams apart from each other, the demultiplexer that has the
tables of a program delivers what was written for each of its streams.
-/

namespace Sdrmm.Ts

/-! ## The bytes of a unit -/

namespace TsWriter

variable (streamId : UInt8) (pts : ℕ) (payload : List UInt8)

theorem pesBody_length : (pesBody streamId pts payload).length = 14 + payload.length := by
  simp only [pesBody, toBe16, List.length_append, List.length_cons, List.length_nil]

set_option maxRecDepth 100000 in
theorem timestamp_byte : ∀ byte : UInt8,
    (0x21 ||| (byte &&& 0x0E)) &&& 1 ≠ 0 ∧ (0x21 ||| (byte &&& 0x0E)) >>> 4 = 2 ∧
      (0x21 ||| (byte &&& 0x0E)).toNat / 2 % 8 = byte.toNat / 2 % 8 :=
  forall_byte (by decide)

set_option maxRecDepth 100000 in
theorem odd_byte : ∀ byte : UInt8, byte.toNat % 2 = 1 → byte &&& 1 ≠ 0 :=
  forall_byte (by decide)

theorem odd_low (value : ℕ) : UInt8.ofNat (value * 2 + 1) &&& 1 ≠ 0 := by
  apply odd_byte
  rw [UInt8.toNat_ofNat']
  omega

variable {pts} in
theorem readTimestamp_written (hpts : pts < 2 ^ 33) :
    readTimestamp ([0x21 ||| (UInt8.ofNat (pts / 2 ^ 29) &&& 0x0E)] ++
      toBe16 (pts / 2 ^ 15 % 2 ^ 15 * 2 + 1) ++ toBe16 (pts % 2 ^ 15 * 2 + 1)) = some pts := by
  obtain ⟨hmarker, -, htop⟩ := timestamp_byte (UInt8.ofNat (pts / 2 ^ 29))
  show (if _ ∨ _ ∨ _ then none else some (_ + be16 _ _ / 2 * 2 ^ 15 + be16 _ _ / 2)) = some pts
  rw [if_neg (by rintro (h | h | h); exacts [hmarker h, odd_low _ h, odd_low _ h]), htop,
    be16_toBe16 (by omega), be16_toBe16 (by omega), UInt8.toNat_ofNat']
  exact congrArg some (by omega)

theorem pesBody_declared :
    be16 ((pesBody streamId pts payload).getD 4 0) ((pesBody streamId pts payload).getD 5 0) =
      if 8 + payload.length < 0x10000 then 8 + payload.length else 0 := by
  show be16 (UInt8.ofNat (_ / 256)) (UInt8.ofNat _) = _
  apply be16_toBe16
  split <;> omega

variable {pts} in
theorem readPts_pesBody (hpts : pts < 2 ^ 33) :
    readPts (pesBody streamId pts payload) 5 = some (some pts) := by
  have htime := (timestamp_byte (UInt8.ofNat (pts / 2 ^ 29))).2.1
  have hread : readTimestamp (((pesBody streamId pts payload).drop 9).take 5) = some pts :=
    readTimestamp_written hpts
  have hflags : (pesBody streamId pts payload).getD 7 0 >>> 6 = 2 := by
    show (0x80 : UInt8) >>> 6 = 2
    decide
  simp only [readPts, hread, hflags]
  rw [if_neg (by decide), if_pos (.inl ⟨trivial, Nat.le_refl 5⟩), if_neg (fun h ↦ h htime),
    if_neg (fun h ↦ absurd h.1 (by decide))]
  rfl

variable {pts} in
/-- A unit that is written is read back. -/
theorem parsePes_pesBody (pid : ℕ) (hpts : pts < 2 ^ 33) :
    parsePes pid (pesBody streamId pts payload) = some ⟨pid, streamId, some pts, payload⟩ := by
  have hlength := pesBody_length streamId pts payload
  have hdeclared := pesBody_declared streamId pts payload
  have hstop : (if (if 8 + payload.length < 0x10000 then 8 + payload.length else 0) = 0
      then 14 + payload.length
      else min (6 + if 8 + payload.length < 0x10000 then 8 + payload.length else 0)
        (14 + payload.length)) = 14 + payload.length := by
    by_cases hbounded : 8 + payload.length < 0x10000
    · rw [if_pos hbounded, if_neg (by omega)]
      omega
    · rw [if_neg hbounded, if_pos rfl]
  have hmarker : (pesBody streamId pts payload).getD 6 0 &&& 0xc0 = 0x80 := by
    show (0x80 : UInt8) &&& 0xc0 = 0x80
    decide
  have hheader : (pesBody streamId pts payload).getD 8 0 = 5 := rfl
  simp only [parsePes, hdeclared, hlength, hstop, hheader]
  rw [if_neg (by rintro (h | h | h); exacts [by omega, h rfl, h hmarker]),
    if_neg (by split <;> omega), if_neg (by show ¬14 + payload.length < 9 + 5; omega),
    show (5 : UInt8).toNat = 5 from rfl, readPts_pesBody streamId payload hpts,
    List.take_of_length_le hlength.le]
  rfl

end TsWriter

/-! ## The pieces of a unit -/

/-- A body that is read as a unit once it is complete. -/
structure Carries (pid : ℕ) (body : List UInt8) (unit : PesUnit) : Prop where
  header : 6 ≤ body.length
  fits : body.length ≤ maxPes
  declared : be16 (body.getD 4 0) (body.getD 5 0) ≠ 0 →
    be16 (body.getD 4 0) (body.getD 5 0) + 6 = body.length
  parses : parsePes pid body = some unit

/-- The buffer behind the bytes of a body, and what came out. -/
def settled (body : List UInt8) (unit : PesUnit) (data : List UInt8) : PesBuffer × List PesUnit × ℕ :=
  if be16 (body.getD 4 0) (body.getD 5 0) ≠ 0 ∧ data = body then ({}, [unit], 0)
  else ({ data := data, active := true }, [], 0)

section Carries

variable {pid : ℕ} {body : List UInt8} {unit : PesUnit}

theorem Carries.closePes_eq (hcarries : Carries pid body unit) : closePes pid body = ([unit], 0) := by
  rw [closePes, hcarries.parses]

theorem Carries.grow_eq (hcarries : Carries pid body unit) {data left : List UInt8}
    (hsplit : data ++ left = body) (hheader : 6 ≤ data.length) :
    PesBuffer.grow pid data = settled body unit data := by
  have hfour : body.getD 4 0 = data.getD 4 0 := by
    rw [← hsplit, List.getD_append _ _ _ _ (by omega)]
  have hfive : body.getD 5 0 = data.getD 5 0 := by
    rw [← hsplit, List.getD_append _ _ _ _ (by omega)]
  have hlength : data.length + left.length = body.length := by rw [← hsplit, List.length_append]
  have hfits := hcarries.fits
  have hdeclared := hcarries.declared
  rw [hfour, hfive] at hdeclared
  rw [PesBuffer.grow, settled, hfour, hfive, if_neg (by omega)]
  by_cases hcomplete : be16 (data.getD 4 0) (data.getD 5 0) ≠ 0 ∧ data = body
  · have hsize := hdeclared hcomplete.1
    have hwhole : data.length = body.length := congrArg List.length hcomplete.2
    rw [if_pos hcomplete, if_pos ⟨hheader, Nat.pos_of_ne_zero hcomplete.1, by omega⟩, hcomplete.2,
      hcarries.closePes_eq]
  · rw [if_neg hcomplete, if_neg]
    rintro ⟨-, hpos, hall⟩
    have hsize := hdeclared hpos.ne'
    have hleft : left = [] := List.eq_nil_of_length_eq_zero (by omega)
    exact hcomplete ⟨hpos.ne', by rw [← hsplit, hleft, List.append_nil]⟩

theorem settled_of_lt {data : List UInt8} (hlt : data.length < body.length) :
    settled body unit data = ({ data := data, active := true }, [], 0) := by
  apply if_neg
  rintro ⟨-, rfl⟩
  exact absurd hlt (Nat.lt_irrefl _)

theorem pieces_nil (fuel : ℕ) (start : Bool) (counter : UInt8) :
    pieces pid fuel start counter [] = ([], counter) := by
  cases fuel with
  | zero => rfl
  | succ fuel => rfl

/-- The pieces behind the first: the induction is on the bytes that are left. -/
theorem Carries.run_rest (hcarries : Carries pid body unit) (fuel : ℕ) (counter : UInt8)
    (data left : List UInt8) (hfuel : left.length ≤ fuel) (hleft : left ≠ []) (hsplit : data ++ left = body)
    (hheader : 6 ≤ data.length) :
    PesBuffer.run pid { data := data, active := true } (pieces pid fuel false counter left).1 =
      settled body unit body := by
  induction fuel generalizing counter data left with
  | zero => exact absurd (List.eq_nil_of_length_eq_zero (Nat.le_zero.mp hfuel)) hleft
  | succ fuel ih =>
    have hpos : 0 < left.length := List.length_pos_of_ne_nil hleft
    have hgrown : data ++ left.take (packet - 4) ++ left.drop (packet - 4) = body := by
      rw [List.append_assoc, List.take_append_drop, hsplit]
    have hlong : 6 ≤ (data ++ left.take (packet - 4)).length := by
      rw [List.length_append]
      omega
    rw [pieces, if_neg hleft]
    dsimp only
    rw [PesBuffer.run_cons, PesBuffer.push_more, hcarries.grow_eq hgrown hlong]
    by_cases hmore : left.drop (packet - 4) = []
    · rw [hmore, List.append_nil] at hgrown
      rw [hgrown, hmore, pieces_nil, PesBuffer.run, List.append_nil, Nat.add_zero]
    · have hlt : (data ++ left.take (packet - 4)).length < body.length := by
        calc
          _ < (data ++ left.take (packet - 4)).length + (left.drop (packet - 4)).length :=
            Nat.lt_add_of_pos_right (List.length_pos_of_ne_nil hmore)
          _ = body.length := by rw [← List.length_append, hgrown]
      have hdone : (left.drop (packet - 4)).length ≤ fuel := by
        rw [List.length_drop, show packet - 4 = 184 from rfl]
        omega
      rw [settled_of_lt hlt, ih _ _ _ hdone hmore hgrown hlong, List.nil_append, Nat.zero_add]

/-- The pieces of a body end the unit before it and give its own. -/
theorem Carries.run_pieces (hcarries : Carries pid body unit) (counter : UInt8) (buffer : PesBuffer) :
    buffer.run pid (pieces pid body.length true counter body).1 =
      ((settled body unit body).1, (buffer.ended pid).1 ++ (settled body unit body).2.1,
        (buffer.ended pid).2 + (settled body unit body).2.2) := by
  have hheader := hcarries.header
  have hpacket : packet - 4 = 184 := rfl
  obtain ⟨fuel, hfuel⟩ : ∃ fuel, body.length = fuel + 1 := ⟨body.length - 1, by omega⟩
  have hbody : body ≠ [] := by
    rintro rfl
    cases hfuel
  have hlong : 6 ≤ (body.take (packet - 4)).length := by
    rw [List.length_take]
    omega
  rw [hfuel, pieces, if_neg hbody]
  dsimp only
  rw [PesBuffer.run_cons, PesBuffer.push_start,
    hcarries.grow_eq (List.take_append_drop (packet - 4) body) hlong]
  by_cases hmore : body.drop (packet - 4) = []
  · have hwhole : body.take (packet - 4) = body := List.take_of_length_le (List.drop_eq_nil_iff.mp hmore)
    rw [hwhole, hmore, pieces_nil, PesBuffer.run, List.append_nil, Nat.add_zero]
  · have hlt : (body.take (packet - 4)).length < body.length := by
      have hleft := List.length_pos_of_ne_nil hmore
      rw [List.length_drop] at hleft
      rw [List.length_take]
      omega
    have hdone : (body.drop (packet - 4)).length ≤ fuel := by
      rw [List.length_drop]
      omega
    rw [settled_of_lt hlt, hcarries.run_rest _ _ _ _ hdone hmore (List.take_append_drop _ _) hlong,
      List.append_nil, Nat.add_zero]

end Carries

/-! ## The units of a stream -/

namespace PesCall

def unit (call : PesCall) : PesUnit := ⟨call.pid, call.streamId, some call.pts, call.payload⟩

def body (call : PesCall) : List UInt8 := TsWriter.pesBody call.streamId call.pts call.payload

/-- The length of the unit does not fit its field. -/
def isOpen (call : PesCall) : Bool := 0x10000 ≤ 8 + call.payload.length

/-- The time has 33 bits and the unit is not larger than the demultiplexer takes. -/
structure Fits (call : PesCall) : Prop where
  pts_lt : call.pts < 2 ^ 33
  size_le : 14 + call.payload.length ≤ maxPes

variable {call : PesCall}

theorem declared_body (call : PesCall) :
    be16 (call.body.getD 4 0) (call.body.getD 5 0) =
      if 8 + call.payload.length < 0x10000 then 8 + call.payload.length else 0 :=
  TsWriter.pesBody_declared call.streamId call.pts call.payload

theorem carries (hfits : call.Fits) : Carries call.pid call.body call.unit where
  header := by
    rw [body, TsWriter.pesBody_length]
    omega
  fits := by
    rw [body, TsWriter.pesBody_length]
    exact hfits.size_le
  declared := by
    rw [declared_body, body, TsWriter.pesBody_length]
    split
    · omega
    · exact fun h ↦ absurd rfl h
  parses := TsWriter.parsePes_pesBody _ _ _ hfits.pts_lt

theorem settled_body (call : PesCall) :
    settled call.body call.unit call.body =
      if call.isOpen then ({ data := call.body, active := true }, [], 0) else ({}, [call.unit], 0) := by
  rw [settled, declared_body, isOpen]
  by_cases hopen : 0x10000 ≤ 8 + call.payload.length
  · rw [if_neg (Nat.not_lt.mpr hopen), if_neg (fun h ↦ h.1 rfl), if_pos (decide_eq_true hopen)]
  · rw [if_pos (Nat.not_le.mp hopen), if_pos ⟨by omega, rfl⟩,
      if_neg (fun h ↦ hopen (of_decide_eq_true h))]

/-- Whether a unit is delivered at its end or at the start of the next, it is delivered once. -/
theorem settled_ended (hfits : call.Fits) :
    (settled call.body call.unit call.body).2.1 ++
        ((settled call.body call.unit call.body).1.ended call.pid).1 = [call.unit] ∧
      ((settled call.body call.unit call.body).1.ended call.pid).2 = 0 ∧
      (settled call.body call.unit call.body).2.2 = 0 := by
  rw [settled_body]
  cases call.isOpen with
  | true =>
    rw [if_pos rfl, PesBuffer.ended, if_pos rfl, (carries hfits).closePes_eq]
    exact ⟨rfl, rfl, rfl⟩
  | false => exact ⟨rfl, rfl, rfl⟩

end PesCall

/-- The pieces of the units of one stream. -/
def stream (pid : ℕ) : UInt8 → List PesCall → List Piece
  | _, [] => []
  | counter, call :: calls =>
      let made := pieces pid call.body.length true counter call.body
      made.1 ++ stream pid made.2 calls

/-- The units that come out; the last one does only when its length fits its field. -/
def delivered (calls : List PesCall) : List PesUnit :=
  (if calls.getLast?.any PesCall.isOpen then calls.dropLast else calls).map PesCall.unit

theorem delivered_cons (call : PesCall) {calls : List PesCall} (hcalls : calls ≠ []) :
    delivered (call :: calls) = call.unit :: delivered calls := by
  rw [delivered, List.getLast?_cons_of_ne_nil hcalls, List.dropLast_cons_of_ne_nil hcalls, delivered]
  split
  · rw [List.map_cons]
  · rw [List.map_cons]

theorem PesBuffer.run_append (pid : ℕ) (buffer : PesBuffer) (first second : List Piece) :
    buffer.run pid (first ++ second) =
      (((buffer.run pid first).1.run pid second).1,
        (buffer.run pid first).2.1 ++ ((buffer.run pid first).1.run pid second).2.1,
        (buffer.run pid first).2.2 + ((buffer.run pid first).1.run pid second).2.2) := by
  induction first generalizing buffer with
  | nil => rw [List.nil_append, PesBuffer.run, List.nil_append, Nat.zero_add]
  | cons piece rest ih => rw [List.cons_append, run_cons, ih, run_cons, List.append_assoc, Nat.add_assoc]

/-- The units of a stream come out one by one; a unit that was left open comes out first. -/
theorem run_stream (pid : ℕ) (counter : UInt8) (buffer : PesBuffer) (calls : List PesCall)
    (hcalls : ∀ call ∈ calls, call.pid = pid ∧ call.Fits) (hbuffer : (buffer.ended pid).2 = 0) :
    (buffer.run pid (stream pid counter calls)).2.2 = 0 ∧
      (buffer.run pid (stream pid counter calls)).2.1 =
        if calls = [] then [] else (buffer.ended pid).1 ++ delivered calls := by
  induction calls generalizing counter buffer with
  | nil => exact ⟨rfl, rfl⟩
  | cons call calls ih =>
    obtain ⟨rfl, hfits⟩ := hcalls call List.mem_cons_self
    obtain ⟨hunit, hclean, hlost⟩ := call.settled_ended hfits
    have hrest := ih (pieces call.pid call.body.length true counter call.body).2
      (settled call.body call.unit call.body).1 (fun other hother ↦ hcalls other (List.mem_cons_of_mem _ hother))
      hclean
    rw [stream, PesBuffer.run_append, (PesCall.carries hfits).run_pieces, hbuffer, hlost, hrest.1, hrest.2,
      if_neg (List.cons_ne_nil call calls)]
    refine ⟨rfl, ?_⟩
    by_cases hcalls : calls = []
    · subst hcalls
      rw [if_pos rfl, List.append_nil, call.settled_body, delivered, List.getLast?_singleton,
        Option.any_some]
      cases call.isOpen with
      | true => rfl
      | false => rfl
    · rw [if_neg hcalls, delivered_cons call hcalls, List.append_assoc, ← List.append_assoc _ _ (delivered calls),
        hunit, List.singleton_append]

theorem run_stream_empty (pid : ℕ) (counter : UInt8) (calls : List PesCall)
    (hcalls : ∀ call ∈ calls, call.pid = pid ∧ call.Fits) :
    (PesBuffer.run pid {} (stream pid counter calls)).2.2 = 0 ∧
      (PesBuffer.run pid {} (stream pid counter calls)).2.1 = delivered calls := by
  obtain ⟨hlost, hunits⟩ := run_stream pid counter {} calls hcalls rfl
  refine ⟨hlost, hunits.trans ?_⟩
  by_cases hnil : calls = []
  · subst hnil
    rfl
  · rw [if_neg hnil]
    rfl

/-! ## What the writer makes for each stream -/

theorem mem_pieces {pid fuel : ℕ} {start : Bool} {counter : UInt8} {body : List UInt8} {piece : Piece}
    (hpid : pid < 0x2000) (hcounter : counter &&& 0x0F = counter)
    (hpiece : piece ∈ (pieces pid fuel start counter body).1) : piece.pid = pid ∧ piece.Ok := by
  induction fuel generalizing start counter body with
  | zero => cases hpiece
  | succ fuel ih =>
    rw [pieces] at hpiece
    split at hpiece
    · cases hpiece
    · next hbody =>
      rcases List.mem_cons.mp hpiece with rfl | hpiece
      · refine ⟨rfl, hpid, hcounter, ?_, List.length_take_le _ _⟩
        rw [List.length_take, show packet - 4 = 184 from rfl]
        have hpos := List.length_pos_of_ne_nil hbody
        omega
      · exact ih (next_counter counter) hpiece

theorem numbered_pieces_append {pid fuel : ℕ} {start : Bool} {counter : UInt8} {body : List UInt8}
    {rest : List Piece} (hrest : Numbered (pieces pid fuel start counter body).2 rest) :
    Numbered counter ((pieces pid fuel start counter body).1 ++ rest) := by
  induction fuel generalizing start counter body with
  | zero => exact hrest
  | succ fuel ih =>
    rw [pieces] at hrest ⊢
    split at hrest
    · next hbody =>
      rw [if_pos hbody]
      exact hrest
    · next hbody =>
      rw [if_neg hbody]
      exact ⟨rfl, ih hrest⟩

theorem numbered_stream (pid : ℕ) (counter : UInt8) (calls : List PesCall) :
    Numbered counter (stream pid counter calls) := by
  induction calls generalizing counter with
  | nil => trivial
  | cons call calls ih => exact numbered_pieces_append (ih _)

namespace TsWriter

variable {writer : TsWriter}

theorem pes_counters (writer : TsWriter) (call : PesCall) :
    (writer.pes call).1.counters = Function.update writer.counters call.pid
      (pieces call.pid call.body.length true (writer.counters call.pid) call.body).2 := by
  rw [pes, payload, PesCall.body]

theorem pes_pieces (writer : TsWriter) (call : PesCall) :
    (writer.pes call).2 =
      (pieces call.pid call.body.length true (writer.counters call.pid) call.body).1 := by
  rw [pes, payload, PesCall.body]

theorem run_cons (writer : TsWriter) (call : PesCall) (calls : List PesCall) :
    (writer.run (call :: calls)).2 = (writer.pes call).2 ++ ((writer.pes call).1.run calls).2 := rfl

theorem mem_run {calls : List PesCall} {piece : Piece} (hpids : ∀ call ∈ calls, call.pid < 0x2000)
    (hpiece : piece ∈ (writer.run calls).2) : piece.Ok ∧ ∃ call ∈ calls, call.pid = piece.pid := by
  induction calls generalizing writer with
  | nil => cases hpiece
  | cons call calls ih =>
    rw [run_cons, List.mem_append] at hpiece
    rcases hpiece with hpiece | hpiece
    · rw [pes_pieces] at hpiece
      have hmade := mem_pieces (hpids call List.mem_cons_self) (writer.four_bits call.pid) hpiece
      exact ⟨hmade.2, call, List.mem_cons_self, hmade.1.symm⟩
    · obtain ⟨hok, other, hother, hpid⟩ :=
        ih (fun other hother ↦ hpids other (List.mem_cons_of_mem _ hother)) hpiece
      exact ⟨hok, other, List.mem_cons_of_mem _ hother, hpid⟩

/-- The packets of one stream are those of the calls for it. -/
theorem filter_run (writer : TsWriter) (calls : List PesCall) (pid : ℕ)
    (hpids : ∀ call ∈ calls, call.pid < 0x2000) :
    (writer.run calls).2.filter (fun piece ↦ piece.pid = pid) =
      stream pid (writer.counters pid) (calls.filter fun call ↦ call.pid = pid) := by
  induction calls generalizing writer with
  | nil => rfl
  | cons call calls ih =>
    have hmade : ∀ piece ∈ (writer.pes call).2, piece.pid = call.pid := by
      intro piece hpiece
      rw [pes_pieces] at hpiece
      exact (mem_pieces (hpids call List.mem_cons_self) (writer.four_bits call.pid) hpiece).1
    rw [run_cons, List.filter_append, ih _ fun other hother ↦ hpids other (List.mem_cons_of_mem _ hother)]
    by_cases hpid : call.pid = pid
    · rw [List.filter_cons, if_pos (decide_eq_true hpid), stream, pes_counters, ← hpid, Function.update_self,
        ← pes_pieces, List.filter_eq_self.mpr]
      intro piece hpiece
      exact decide_eq_true (hmade piece hpiece)
    · rw [List.filter_cons, if_neg (fun h ↦ hpid (of_decide_eq_true h)), pes_counters,
        Function.update_of_ne (Ne.symm hpid), List.filter_eq_nil_iff.mpr, List.nil_append]
      intro piece hpiece hsame
      exact hpid ((hmade piece hpiece).symm.trans (of_decide_eq_true hsame))

end TsWriter

/-! ## The multiplex -/

/-- The demultiplexer that has received packets and reads the program that is selected. -/
def TsDemux.reached (received : List (List UInt8)) (selected : Option ℕ) : TsDemux :=
  (({} : TsDemux).run received).1.select selected

theorem TsDemux.reached_spec (received : List (List UInt8)) (selected : Option ℕ) {pid : ℕ}
    (hpid : ∀ bytes ∈ received, pid ≠ pidOf bytes) :
    (reached received selected).continuity pid = none ∧ (reached received selected).pes pid = none ∧
      NarrowPrograms (reached received selected).programs := by
  have hapart := apart_run {} received hpid
  have hnarrow := hapart.narrow fun _ hentry ↦ nomatch hentry
  unfold reached select
  split
  · exact ⟨hapart.continuity, rfl, hnarrow⟩
  · exact ⟨hapart.continuity, hapart.pes, hnarrow⟩

/-- Each stream of the selected program delivers what was written for it, however the packets of the
streams stand between each other and whichever of them are repeated. -/
theorem units_of_each_stream (received : List (List UInt8)) (selected : Option ℕ) (writer : TsWriter)
    (calls : List PesCall) (multiplex : List (Piece × ℕ)) (hfits : ∀ call ∈ calls, call.Fits)
    (hstreams : ∀ call ∈ calls, (TsDemux.reached received selected).Reads call.pid)
    (hnew : ∀ call ∈ calls, ∀ bytes ∈ received, call.pid ≠ TsDemux.pidOf bytes)
    (hmultiplex : ∀ pid, piecesOf pid multiplex =
      (writer.run calls).2.filter fun piece ↦ piece.pid = pid) :
    (∀ pid, (((TsDemux.reached received selected).run (onAir multiplex)).2.filter
        fun unit ↦ unit.pid = pid) = delivered (calls.filter fun call ↦ call.pid = pid)) ∧
      ((TsDemux.reached received selected).run (onAir multiplex)).1.dropped =
        (TsDemux.reached received selected).dropped ∧
      ((TsDemux.reached received selected).run (onAir multiplex)).1.discontinuities =
        (TsDemux.reached received selected).discontinuities := by
  set demux := TsDemux.reached received selected
  have hfresh : ∀ call ∈ calls, demux.continuity call.pid = none ∧ demux.pes call.pid = none ∧
      NarrowPrograms demux.programs := fun call hcall ↦
    TsDemux.reached_spec received selected (hnew call hcall)
  have hpids : ∀ call ∈ calls, call.pid < 0x2000 := fun call hcall ↦
    TsDemux.pid_lt_of_isSelectedStream (hfresh call hcall).2.2 (hstreams call hcall).selected
  have hpieces : ∀ pid, piecesOf pid multiplex =
      stream pid (writer.counters pid) (calls.filter fun call ↦ call.pid = pid) := fun pid ↦
    (hmultiplex pid).trans (writer.filter_run calls pid hpids)
  have hmade : ∀ sent ∈ multiplex, sent.1.Ok ∧ ∃ call ∈ calls, call.pid = sent.1.pid := by
    intro sent hsent
    have hmem : sent.1 ∈ piecesOf sent.1.pid multiplex :=
      List.mem_filter.mpr ⟨List.mem_map_of_mem hsent, decide_eq_true rfl⟩
    rw [hmultiplex] at hmem
    exact TsWriter.mem_run hpids (List.mem_filter.mp hmem).1
  -- a stream without calls is not in the multiplex, so that its own counter may be anything
  have hcalls : ∀ pid, (calls.filter fun call ↦ call.pid = pid) = [] ∨
      demux.continuity pid = none ∧ demux.pes pid = none := by
    intro pid
    by_cases hcall : ∃ call ∈ calls, call.pid = pid
    · obtain ⟨call, hcall, rfl⟩ := hcall
      exact .inr ⟨(hfresh call hcall).1, (hfresh call hcall).2.1⟩
    · exact .inl (List.filter_eq_nil_iff.mpr fun call hmem hpid ↦
        hcall ⟨call, hmem, of_decide_eq_true hpid⟩)
  have hout : ∀ pid, (((demux.pes pid).getD {}).run pid (piecesOf pid multiplex)).2.2 = 0 ∧
      (((demux.pes pid).getD {}).run pid (piecesOf pid multiplex)).2.1 =
        delivered (calls.filter fun call ↦ call.pid = pid) := by
    intro pid
    rw [hpieces]
    rcases hcalls pid with hnone | ⟨-, hbuffer⟩
    · rw [hnone]
      exact ⟨rfl, rfl⟩
    · rw [hbuffer]
      apply run_stream_empty
      intro call hcall
      rw [List.mem_filter] at hcall
      exact ⟨of_decide_eq_true hcall.2, hfits call hcall.1⟩
  obtain ⟨hunits, hdropped, hgaps⟩ := @TsDemux.run_onAir demux multiplex
    (fun pid ↦ (demux.continuity pid).elim (writer.counters pid) fun previous ↦
      (previous.1 + 1) &&& 0x0F)
    (fun sent hsent ↦ (hmade sent hsent).1)
    (by
      intro sent hsent
      obtain ⟨call, hcall, hpid⟩ := (hmade sent hsent).2
      rw [← hpid]
      exact hstreams call hcall)
    (by
      intro pid previous hprevious
      rw [Option.mem_def.mp hprevious, Option.elim_some])
    (by
      intro pid
      rw [hpieces]
      rcases hcalls pid with hnone | ⟨hseen, -⟩
      · rw [hnone]
        trivial
      · rw [hseen]
        exact numbered_stream pid _ _)
    (fun pid ↦ (hout pid).1)
  exact ⟨fun pid ↦ (hunits pid).trans (hout pid).2, hdropped, hgaps⟩

/-! ## A multiplex of two programs -/

/-- A table with its check. -/
def checked (table : List UInt8) : List UInt8 := table ++ toBe32 (Dsp.crc32Mpeg table).toNat

/-- The first program has a picture, a sound and streams with the numbers of empty packets and of a table,
the second a picture. -/
def twoPrograms : List (List UInt8) :=
  ((({} : TsWriter).sections patPid (checked [0x00, 0xB0, 17, 0, 1, 0xC1, 0, 0,
      0, 1, 0xE1, 0x00, 0, 2, 0xE2, 0x00])).2 ++
    (({} : TsWriter).sections 0x100 (checked [0x02, 0xB0, 33, 0, 1, 0xC1, 0, 0, 0xE1, 0x01, 0xF0, 0,
      0x1B, 0xE1, 0x01, 0xF0, 0, 0x0F, 0xE1, 0x02, 0xF0, 0,
      0x1B, 0xFF, 0xFF, 0xF0, 0, 0x1B, 0xE0, 0x11, 0xF0, 0])).2 ++
    (({} : TsWriter).sections 0x200 (checked [0x02, 0xB0, 18, 0, 2, 0xC1, 0, 0, 0xE2, 0x01, 0xF0, 0,
      0x1B, 0xE2, 0x01, 0xF0, 0])).2).map Piece.bytes

/-- The sound goes in front of the pictures, and the first picture is sent three times. -/
theorem units_of_each_stream_two :
    ((TsDemux.reached twoPrograms none).run (onAir
      [(⟨0x102, true, 0, TsWriter.pesBody 0xC0 7 [2]⟩, 0), (⟨0x101, true, 0, TsWriter.pesBody 0xE0 5 [1]⟩, 2),
        (⟨0x101, true, 1, TsWriter.pesBody 0xE0 9 [3]⟩, 0)])).2.filter (fun unit ↦ unit.pid = 0x101) =
      [⟨0x101, 0xE0, some 5, [1]⟩, ⟨0x101, 0xE0, some 9, [3]⟩] := by
  have hpicture : (TsDemux.reached twoPrograms none).Reads 0x101 :=
    ⟨by decide +kernel, by decide +kernel, by decide⟩
  have hsound : (TsDemux.reached twoPrograms none).Reads 0x102 :=
    ⟨by decide +kernel, by decide +kernel, by decide⟩
  have hunits := units_of_each_stream twoPrograms none {}
    [⟨0x101, 0xE0, 5, [1]⟩, ⟨0x102, 0xC0, 7, [2]⟩, ⟨0x101, 0xE0, 9, [3]⟩]
    [(⟨0x102, true, 0, TsWriter.pesBody 0xC0 7 [2]⟩, 0), (⟨0x101, true, 0, TsWriter.pesBody 0xE0 5 [1]⟩, 2),
      (⟨0x101, true, 1, TsWriter.pesBody 0xE0 9 [3]⟩, 0)]
    (by
      intro call hcall
      simp only [List.mem_cons, List.not_mem_nil, or_false] at hcall
      rcases hcall with rfl | rfl | rfl
      all_goals exact ⟨by decide, by decide⟩)
    (by
      intro call hcall
      simp only [List.mem_cons, List.not_mem_nil, or_false] at hcall
      rcases hcall with rfl | rfl | rfl
      · exact hpicture
      · exact hsound
      · exact hpicture)
    (by decide)
    (by
      intro pid
      show List.filter _ [(⟨0x102, true, 0, _⟩ : Piece), ⟨0x101, true, 0, _⟩, ⟨0x101, true, 1, _⟩] =
        List.filter _ [⟨0x101, true, 0, _⟩, ⟨0x102, true, 0, _⟩, ⟨0x101, true, 1, _⟩]
      by_cases hpid : pid = 0x102
      · subst hpid
        rfl
      · simp only [List.filter_cons, Ne.symm hpid, decide_false, Bool.false_eq_true, if_false]
        rfl)
  exact hunits.1 0x101

/-- Streams of a program that is not selected are announced and not read, as are those with the number of
empty packets or of a table. -/
theorem announced_and_passed_over :
    (∀ pid ∈ [0x201, nullPid, sdtPid],
      (∃ program ∈ (TsDemux.reached twoPrograms none).programs.values,
        ∃ stream ∈ program.streams, stream.pid = pid) ∧
      ((TsDemux.reached twoPrograms none).run
        ((({} : TsWriter).pes ⟨pid, 0xE0, 5, [1, 2, 3]⟩).2.map Piece.bytes)).2 = [] ∧
      delivered [⟨pid, 0xE0, 5, [1, 2, 3]⟩] = [⟨pid, 0xE0, some 5, [1, 2, 3]⟩]) ∧
    5 < 2 ^ 33 ∧ 14 + [1, 2, 3].length ≤ maxPes := by
  refine ⟨?_, ?_, ?_⟩
  all_goals decide +kernel

end Sdrmm.Ts
