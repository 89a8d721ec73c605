import Mathlib.Tactic
import Sdrmm.Lib.LittleEndian

/-!
# Binary stream frames

The frame codec of `wire/src/frame.rs`.  The source expands one macro, `define_frame`, over a field
list per frame kind; here the field list is data, and `encode`, `encodedLen` and `decode` are the
expansion over an arbitrary list.  Floating-point fields are carried as their raw bit patterns,
which is all the codec reads of them.

The results are the two round trips for every decodable kind.  Decoding inverts encoding on frames
whose shape holds and whose 16-bit lengths fit, and a buffer that decodes at all is the encoding of
the frame it decodes to, so trailing bytes, a foreign tag or an inconsistent shape are refused.
-/

namespace Sdrmm.WireFrame

open LittleEndian

def protocolVersion : UInt8 := 1

def headerLen : ℕ := 16

inductive FrameKind
  | spectrum
  | audioOpus
  | iqF32
  | videoGray
  | videoRgb
  | symbols
  | rangeDoppler
  | spatialSpectrum
  | visibility
  | fusionGrid
  deriving DecidableEq, Repr

/-- The tag byte, `kind as u8`. -/
def FrameKind.toU8 : FrameKind → UInt8
  | spectrum => 0
  | audioOpus => 1
  | iqF32 => 2
  | videoGray => 3
  | videoRgb => 4
  | symbols => 5
  | rangeDoppler => 6
  | spatialSpectrum => 7
  | visibility => 8
  | fusionGrid => 9

inductive FrameError
  | short
  | version (found : UInt8)
  | kind (found : UInt8)
  | length
  | shape
  deriving DecidableEq, Repr

inductive VideoData
  | gray (bytes : List UInt8)
  | rgb (bytes : List UInt8)
  deriving DecidableEq, Repr

namespace VideoData

def kind : VideoData → FrameKind
  | gray _ => .videoGray
  | rgb _ => .videoRgb

def bytes : VideoData → List UInt8
  | gray bytes => bytes
  | rgb bytes => bytes

def channels : VideoData → ℕ
  | gray _ => 1
  | rgb _ => 3

end VideoData

/-! ## Reader -/

structure Reader where
  buf : List UInt8
  pos : ℕ
  kind : UInt8

namespace Reader

def new (buf : List UInt8) : Except FrameError Reader :=
  match buf with
  | version :: kind :: _ =>
      if buf.length < headerLen then .error .short
      else if version ≠ protocolVersion then .error (.version version)
      else .ok { buf := buf, pos := 2, kind := kind }
  | _ => .error .short

def accepting (buf : List UInt8) (accepts : List FrameKind) : Except FrameError Reader := do
  let reader ← new buf
  if accepts.any (fun kind ↦ kind.toU8 == reader.kind) then .ok reader
  else .error (.kind reader.kind)

def take (r : Reader) (len : ℕ) : Option (List UInt8 × Reader) :=
  if r.pos + len ≤ r.buf.length then
    some ((r.buf.drop r.pos).take len, { r with pos := r.pos + len })
  else none

def array (r : Reader) (len : ℕ) : Except FrameError (List UInt8 × Reader) :=
  match r.take len with
  | some read => .ok read
  | none => .error .short

/-- A scalar of `width` bytes, `from_le_bytes` of an array. -/
def scalar (r : Reader) (width : ℕ) : Except FrameError (ℕ × Reader) := do
  let (bytes, r) ← r.array width
  .ok (ofBytes bytes, r)

def rest (r : Reader) : List UInt8 × Reader :=
  (r.buf.drop r.pos, { r with pos := r.buf.length })

def prefixed (r : Reader) : Except FrameError (List UInt8 × Reader) := do
  let (len, r) ← r.scalar 2
  match r.take len with
  | some read => .ok read
  | none => .error .length

def video (r : Reader) : VideoData × Reader :=
  let (bytes, next) := r.rest
  if r.kind = FrameKind.videoRgb.toU8 then (.rgb bytes, next) else (.gray bytes, next)

def finish (r : Reader) : Except FrameError Unit :=
  if r.pos = r.buf.length then .ok () else .error .length

end Reader

/-! ## Fields -/

/-- The field types of the decodable frames, in the words of the macro. -/
inductive FieldTy
  | u8
  | u16
  | f32
  | f64
  | bytes
  | bytes16
  | video
  deriving DecidableEq, Repr

namespace FieldTy

abbrev Value : FieldTy → Type
  | u8 => UInt8
  | u16 => UInt16
  | f32 => UInt32
  | f64 => UInt64
  | bytes => List UInt8
  | bytes16 => List UInt8
  | video => VideoData

def writeField : (ty : FieldTy) → ty.Value → List UInt8
  | u8, value => toBytes 1 value.toNat
  | u16, value => toBytes 2 value.toNat
  | f32, value => toBytes 4 value.toNat
  | f64, value => toBytes 8 value.toNat
  | bytes, value => value
  | bytes16, value => toBytes 2 value.length ++ value
  | video, value => value.bytes

def fieldLen : (ty : FieldTy) → ty.Value → ℕ
  | u8, _ => 1
  | u16, _ => 2
  | f32, _ => 4
  | f64, _ => 8
  | bytes, value => value.length
  | bytes16, value => 2 + value.length
  | video, value => value.bytes.length

def readField : (ty : FieldTy) → Reader → Except FrameError (ty.Value × Reader)
  | u8, r => do
      let (value, r) ← r.scalar 1
      .ok (UInt8.ofNat value, r)
  | u16, r => do
      let (value, r) ← r.scalar 2
      .ok (UInt16.ofNat value, r)
  | f32, r => do
      let (value, r) ← r.scalar 4
      .ok (UInt32.ofNat value, r)
  | f64, r => do
      let (value, r) ← r.scalar 8
      .ok (UInt64.ofNat value, r)
  | bytes, r => .ok r.rest
  | bytes16, r => r.prefixed
  | video, r => .ok r.video

end FieldTy

/-- The values of a field list, in order. -/
abbrev Fields : List FieldTy → Type
  | [] => Unit
  | ty :: tys => ty.Value × Fields tys

def writeFields : (tys : List FieldTy) → Fields tys → List UInt8
  | [], _ => []
  | ty :: tys, (value, values) => ty.writeField value ++ writeFields tys values

def fieldsLen : (tys : List FieldTy) → Fields tys → ℕ
  | [], _ => 0
  | ty :: tys, (value, values) => ty.fieldLen value + fieldsLen tys values

def readFields : (tys : List FieldTy) → Reader → Except FrameError (Fields tys × Reader)
  | [], r => .ok ((), r)
  | ty :: tys, r => do
      let (value, r) ← ty.readField r
      let (values, r) ← readFields tys r
      .ok ((value, values), r)

/-! ## Frames -/

/-- One invocation of `define_frame!`: what differs between the frame kinds. -/
structure Layout where
  fields : List FieldTy
  kind : Fields fields → FrameKind
  accepts : List FrameKind
  shapeHolds : Fields fields → Bool

structure Frame (layout : Layout) where
  streamId : UInt16
  seq : UInt32
  timestamp : UInt64
  fields : Fields layout.fields

namespace Layout

variable (layout : Layout)

def encodedLen (frame : Frame layout) : ℕ := headerLen + fieldsLen layout.fields frame.fields

def encode (frame : Frame layout) : List UInt8 :=
  [protocolVersion, (layout.kind frame.fields).toU8] ++ toBytes 2 frame.streamId.toNat ++
    toBytes 4 frame.seq.toNat ++ toBytes 8 frame.timestamp.toNat ++
    writeFields layout.fields frame.fields

def decode (buf : List UInt8) : Except FrameError (Frame layout) := do
  let r ← Reader.accepting buf layout.accepts
  let (streamId, r) ← r.scalar 2
  let (seq, r) ← r.scalar 4
  let (timestamp, r) ← r.scalar 8
  let (fields, r) ← readFields layout.fields r
  r.finish
  if layout.shapeHolds fields then
    .ok { streamId := .ofNat streamId, seq := .ofNat seq, timestamp := .ofNat timestamp, fields }
  else .error .shape

end Layout

def cellsFit (cells : ℕ) (rows cols : UInt16) : Bool :=
  0 < rows && 0 < cols && cells == rows.toNat * cols.toNat

def fusionFrameCells : UInt16 := 128

def spectrumFrame : Layout where
  fields := [.f64, .f32, .f32, .f32, .bytes16]
  kind := fun _ ↦ .spectrum
  accepts := [.spectrum]
  shapeHolds := fun (_centerHz, _spanHz, _dbMin, _dbMax, _bins, ()) ↦ true

def audioFrame : Layout where
  fields := [.u8, .bytes]
  kind := fun _ ↦ .audioOpus
  accepts := [.audioOpus]
  shapeHolds := fun (_chLayout, _opus, ()) ↦ true

def rangeDopplerFrame : Layout where
  fields := [.u16, .u16, .f32, .f32, .f32, .f32, .f64, .f32, .f32, .bytes]
  kind := fun _ ↦ .rangeDoppler
  accepts := [.rangeDoppler]
  shapeHolds := fun (ranges, dopplers, _rangeFirstM, _rangeStepM, _dopplerFirstHz, _dopplerStepHz,
    _carrierHz, _dbMin, _dbMax, cells, ()) ↦ cellsFit cells.length dopplers ranges

def videoFrame : Layout where
  fields := [.u16, .u16, .video]
  kind := fun (_width, _height, data, ()) ↦ data.kind
  accepts := [.videoGray, .videoRgb]
  shapeHolds := fun (width, height, data, ()) ↦
    let pixels := width.toNat * height.toNat
    0 < pixels && data.bytes.length == pixels * data.channels

def spatialSpectrumFrame : Layout where
  fields := [.f64, .f32, .u16, .u16, .f32, .f32, .bytes]
  kind := fun _ ↦ .spatialSpectrum
  accepts := [.spatialSpectrum]
  shapeHolds := fun (_centerHz, _spanHz, bearings, bins, _dbMin, _dbMax, cells, ()) ↦
    cellsFit cells.length bearings bins

def visibilityFrame : Layout where
  fields := [.f64, .f32, .u16, .u16, .f32, .f32, .bytes16, .bytes]
  kind := fun _ ↦ .visibility
  accepts := [.visibility]
  shapeHolds := fun (_centerHz, _spanHz, baselines, bins, _dbMin, _dbMax, amplitude, phase, ()) ↦
    cellsFit amplitude.length baselines bins && phase.length == amplitude.length

def fusionGridFrame : Layout where
  fields := [.f64, .f64, .f64, .f64, .u16, .u16, .bytes]
  kind := fun _ ↦ .fusionGrid
  accepts := [.fusionGrid]
  shapeHolds := fun (_south, _west, _north, _east, cols, rows, cells, ()) ↦
    cellsFit cells.length rows cols && cols ≤ fusionFrameCells && rows ≤ fusionFrameCells

/-- The frame types that have a `decode`. -/
inductive Decodable
  | spectrum
  | audio
  | rangeDoppler
  | video
  | spatialSpectrum
  | visibility
  | fusionGrid
  deriving DecidableEq, Repr

def Decodable.layout : Decodable → Layout
  | spectrum => spectrumFrame
  | audio => audioFrame
  | rangeDoppler => rangeDopplerFrame
  | video => videoFrame
  | spatialSpectrum => spatialSpectrumFrame
  | visibility => visibilityFrame
  | fusionGrid => fusionGridFrame

/-! ## What a successful read consumed -/

/-- `next` is `r` after reading exactly `bytes`. -/
structure Consumes (r : Reader) (bytes : List UInt8) (next : Reader) : Prop where
  buf : next.buf = r.buf
  kind : next.kind = r.kind
  pos : next.pos = r.pos + bytes.length
  bounded : next.pos ≤ r.buf.length
  split : r.buf.drop r.pos = bytes ++ r.buf.drop next.pos

namespace Consumes

variable {r middle next : Reader} {first second bytes : List UInt8}

theorem trans (hfirst : Consumes r first middle) (hsecond : Consumes middle second next) :
    Consumes r (first ++ second) next where
  buf := hsecond.buf.trans hfirst.buf
  kind := hsecond.kind.trans hfirst.kind
  pos := by rw [hsecond.pos, hfirst.pos, List.length_append, Nat.add_assoc]
  bounded := hfirst.buf ▸ hsecond.bounded
  split := by
    have hrest := hsecond.split
    rw [hfirst.buf] at hrest
    rw [hfirst.split, hrest, List.append_assoc]

/-- A read of a concatenation passes through the reader between the two parts. -/
theorem cut (h : Consumes r (first ++ second) next) :
    ∃ middle, Consumes r first middle ∧ Consumes middle second next := by
  have hpos := h.pos
  have hbounded := h.bounded
  rw [List.length_append] at hpos
  have hdrop : r.buf.drop (r.pos + first.length) = second ++ r.buf.drop next.pos := by
    rw [← List.drop_drop, h.split, List.append_assoc, List.drop_left]
  refine ⟨{ r with pos := r.pos + first.length }, ⟨rfl, rfl, rfl, by dsimp only; omega, ?_⟩,
    ⟨h.buf, h.kind, by dsimp only; omega, hbounded, hdrop⟩⟩
  rw [h.split, hdrop, List.append_assoc]

end Consumes

theorem take_eq_some_iff (r next : Reader) (len : ℕ) (bytes : List UInt8) :
    r.take len = some (bytes, next) ↔ bytes.length = len ∧ Consumes r bytes next := by
  unfold Reader.take
  constructor
  · intro h
    split_ifs at h with hroom
    obtain ⟨rfl, rfl⟩ := Prod.mk.inj (Option.some.inj h)
    have hlen : ((r.buf.drop r.pos).take len).length = len := by
      rw [List.length_take, List.length_drop]
      omega
    refine ⟨hlen, rfl, rfl, by rw [hlen], hroom, ?_⟩
    rw [← List.drop_drop, List.take_append_drop]
  · rintro ⟨rfl, h⟩
    have hroom : r.pos + bytes.length ≤ r.buf.length := h.pos ▸ h.bounded
    rw [if_pos hroom, h.split, List.take_left]
    obtain ⟨buf, pos, kind⟩ := next
    simp [← h.buf, ← h.kind, ← h.pos]

theorem bind_eq_ok_iff {ε α β : Type} (first : Except ε α) (second : α → Except ε β) (result : β) :
    (first >>= second) = .ok result ↔ ∃ value, first = .ok value ∧ second value = .ok result := by
  cases first with
  | error err => simp [bind, Except.bind]
  | ok value => simp [bind, Except.bind]

theorem array_eq_ok_iff (r next : Reader) (len : ℕ) (bytes : List UInt8) :
    r.array len = .ok (bytes, next) ↔ bytes.length = len ∧ Consumes r bytes next := by
  rw [← take_eq_some_iff]
  unfold Reader.array
  cases r.take len <;> simp

theorem scalar_eq_ok_iff (r next : Reader) (width value : ℕ) :
    r.scalar width = .ok (value, next) ↔
      value < 256 ^ width ∧ Consumes r (toBytes width value) next := by
  unfold Reader.scalar
  rw [bind_eq_ok_iff]
  constructor
  · rintro ⟨⟨bytes, middle⟩, harray, hvalue⟩
    obtain ⟨hlen, hread⟩ := (array_eq_ok_iff r middle width bytes).mp harray
    obtain ⟨rfl, rfl⟩ := Prod.mk.inj (Except.ok.inj hvalue)
    rw [← hlen, toBytes_ofBytes]
    exact ⟨ofBytes_lt bytes, hread⟩
  · rintro ⟨hfits, hread⟩
    refine ⟨(toBytes width value, next),
      (array_eq_ok_iff r next width _).mpr ⟨length_toBytes width value, hread⟩, ?_⟩
    dsimp only
    rw [ofBytes_toBytes width value hfits]

theorem prefixed_eq_ok_iff (r next : Reader) (bytes : List UInt8) :
    r.prefixed = .ok (bytes, next) ↔
      bytes.length ≤ 65535 ∧ Consumes r (toBytes 2 bytes.length ++ bytes) next := by
  unfold Reader.prefixed
  rw [bind_eq_ok_iff]
  constructor
  · rintro ⟨⟨len, middle⟩, hlen, hbytes⟩
    obtain ⟨hfits, hfirst⟩ := (scalar_eq_ok_iff r middle 2 len).mp hlen
    have htake : middle.take len = some (bytes, next) := by
      dsimp only at hbytes
      cases htake : middle.take len with
      | none => rw [htake] at hbytes; cases hbytes
      | some read => rw [htake] at hbytes; rw [Except.ok.inj hbytes]
    obtain ⟨rfl, hsecond⟩ := (take_eq_some_iff middle next len bytes).mp htake
    exact ⟨by omega, hfirst.trans hsecond⟩
  · rintro ⟨hfits, hread⟩
    obtain ⟨middle, hfirst, hsecond⟩ := hread.cut
    refine ⟨(bytes.length, middle),
      (scalar_eq_ok_iff r middle 2 _).mpr ⟨by omega, hfirst⟩, ?_⟩
    dsimp only
    rw [(take_eq_some_iff middle next _ bytes).mpr ⟨rfl, hsecond⟩]

theorem rest_eq_iff (r next : Reader) (bytes : List UInt8) (hpos : r.pos ≤ r.buf.length) :
    r.rest = (bytes, next) ↔ Consumes r bytes next ∧ next.pos = next.buf.length := by
  unfold Reader.rest
  constructor
  · intro h
    obtain ⟨rfl, rfl⟩ := Prod.mk.inj h
    refine ⟨⟨rfl, rfl, ?_, le_rfl, by simp⟩, rfl⟩
    rw [List.length_drop]
    dsimp only
    omega
  · rintro ⟨h, hend⟩
    have hsplit := h.split
    rw [← h.buf, hend, List.drop_length, List.append_nil, h.buf] at hsplit
    rw [hsplit]
    obtain ⟨buf, pos, kind⟩ := next
    have hbuf := h.buf
    have hkind := h.kind
    simp_all

/-- The values of a field that the wire can carry under a tag: a 16-bit length has to fit, and a
picture has to be of the colour depth the tag announces. -/
def FieldTy.Fits (tag : UInt8) : (ty : FieldTy) → ty.Value → Prop
  | bytes16, value => value.length ≤ 65535
  | video, value => value.kind = .videoRgb ↔ tag = FrameKind.videoRgb.toU8
  | _, _ => True

/-- Fields without a length of their own, which run to the end of the buffer. -/
def FieldTy.IsTail : FieldTy → Prop
  | bytes => True
  | video => True
  | _ => False

/-- Reading a scalar of a machine type whose numbers are those below `256 ^ width`. -/
theorem readScalar_eq_ok_iff {α : Type} (ofNat : ℕ → α) (toNat : α → ℕ) (width : ℕ)
    (hlt : ∀ value, toNat value < 256 ^ width) (hleft : ∀ value, ofNat (toNat value) = value)
    (hright : ∀ n, n < 256 ^ width → toNat (ofNat n) = n) (r next : Reader) (value : α) :
    (r.scalar width >>= fun read ↦ Except.ok (ofNat read.1, read.2)) = .ok (value, next) ↔
      Consumes r (toBytes width (toNat value)) next := by
  rw [bind_eq_ok_iff]
  constructor
  · rintro ⟨⟨n, middle⟩, hread, hvalue⟩
    obtain ⟨hfits, hconsumes⟩ := (scalar_eq_ok_iff r middle width n).mp hread
    obtain ⟨rfl, rfl⟩ := Prod.mk.inj (Except.ok.inj hvalue)
    rw [hright n hfits]
    exact hconsumes
  · intro h
    exact ⟨(toNat value, next), (scalar_eq_ok_iff r next width _).mpr ⟨hlt value, h⟩,
      by rw [hleft]⟩

theorem video_eq_iff (r next : Reader) (value : VideoData) (hpos : r.pos ≤ r.buf.length) :
    r.video = (value, next) ↔ (value.kind = .videoRgb ↔ r.kind = FrameKind.videoRgb.toU8) ∧
      Consumes r value.bytes next ∧ next.pos = next.buf.length := by
  rw [← rest_eq_iff r next value.bytes hpos]
  unfold Reader.video
  by_cases hrgb : r.kind = FrameKind.videoRgb.toU8
  · cases value <;> simp [hrgb, VideoData.kind, VideoData.bytes, Prod.ext_iff]
  · cases value <;> simp [hrgb, VideoData.kind, VideoData.bytes, Prod.ext_iff]

theorem readField_eq_ok_iff (ty : FieldTy) (r next : Reader) (value : ty.Value)
    (hpos : r.pos ≤ r.buf.length) :
    ty.readField r = .ok (value, next) ↔ ty.Fits r.kind value ∧
      Consumes r (ty.writeField value) next ∧ (ty.IsTail → next.pos = next.buf.length) := by
  cases ty with
  | u8 =>
    simpa [FieldTy.readField, FieldTy.Fits, FieldTy.writeField, FieldTy.IsTail] using
      readScalar_eq_ok_iff UInt8.ofNat UInt8.toNat 1 (fun value ↦ value.toNat_lt)
        (fun value ↦ UInt8.ofNat_toNat) (fun n hn ↦ UInt8.toNat_ofNat_of_lt hn) r next value
  | u16 =>
    simpa [FieldTy.readField, FieldTy.Fits, FieldTy.writeField, FieldTy.IsTail] using
      readScalar_eq_ok_iff UInt16.ofNat UInt16.toNat 2 (fun value ↦ value.toNat_lt)
        (fun value ↦ UInt16.ofNat_toNat) (fun n hn ↦ UInt16.toNat_ofNat_of_lt hn) r next value
  | f32 =>
    simpa [FieldTy.readField, FieldTy.Fits, FieldTy.writeField, FieldTy.IsTail] using
      readScalar_eq_ok_iff UInt32.ofNat UInt32.toNat 4 (fun value ↦ value.toNat_lt)
        (fun value ↦ UInt32.ofNat_toNat) (fun n hn ↦ UInt32.toNat_ofNat_of_lt hn) r next value
  | f64 =>
    simpa [FieldTy.readField, FieldTy.Fits, FieldTy.writeField, FieldTy.IsTail] using
      readScalar_eq_ok_iff UInt64.ofNat UInt64.toNat 8 (fun value ↦ value.toNat_lt)
        (fun value ↦ UInt64.ofNat_toNat) (fun n hn ↦ UInt64.toNat_ofNat_of_lt hn) r next value
  | bytes =>
    simpa [FieldTy.readField, FieldTy.Fits, FieldTy.writeField, FieldTy.IsTail] using
      rest_eq_iff r next value hpos
  | bytes16 =>
    simpa [FieldTy.readField, FieldTy.Fits, FieldTy.writeField, FieldTy.IsTail] using
      prefixed_eq_ok_iff r next value
  | video =>
    simpa [FieldTy.readField, FieldTy.Fits, FieldTy.writeField, FieldTy.IsTail] using
      video_eq_iff r next value hpos

/-! ## Whole frames -/

def FieldsFit (tag : UInt8) : (tys : List FieldTy) → Fields tys → Prop
  | [], _ => True
  | ty :: tys, (value, values) => ty.Fits tag value ∧ FieldsFit tag tys values

/-- Only the last field of a frame may run to the end of the buffer. -/
def TailLast : List FieldTy → Prop
  | [] => True
  | ty :: tys => (ty.IsTail → tys = []) ∧ TailLast tys

theorem readFields_eq_ok_iff (tys : List FieldTy) (htail : TailLast tys) (r next : Reader)
    (values : Fields tys) (hpos : r.pos ≤ r.buf.length) (hend : next.pos = next.buf.length) :
    readFields tys r = .ok (values, next) ↔
      FieldsFit r.kind tys values ∧ Consumes r (writeFields tys values) next := by
  induction tys generalizing r with
  | nil =>
    constructor
    · intro h
      obtain ⟨-, rfl⟩ := Prod.mk.inj (Except.ok.inj h)
      exact ⟨trivial, rfl, rfl, rfl, hpos, rfl⟩
    · rintro ⟨-, h⟩
      obtain ⟨buf, pos, kind⟩ := next
      obtain ⟨rfl, rfl, rfl, -, -⟩ := h
      rfl
  | cons ty tys ih =>
    obtain ⟨value, values⟩ := values
    obtain ⟨htailHere, htail⟩ := htail
    rw [readFields, bind_eq_ok_iff]
    constructor
    · rintro ⟨⟨read, middle⟩, hread, hrest⟩
      rw [bind_eq_ok_iff] at hrest
      obtain ⟨⟨reads, last⟩, hreads, hdone⟩ := hrest
      obtain ⟨hvalues, rfl⟩ := Prod.mk.inj (Except.ok.inj hdone)
      obtain ⟨rfl, rfl⟩ := Prod.mk.inj hvalues
      obtain ⟨hfits, hfirst, -⟩ := (readField_eq_ok_iff ty r middle read hpos).mp hread
      have hmiddle : middle.pos ≤ middle.buf.length := hfirst.buf ▸ hfirst.bounded
      obtain ⟨hfitsRest, hsecond⟩ := (ih htail middle reads hmiddle).mp hreads
      rw [hfirst.kind] at hfitsRest
      exact ⟨⟨hfits, hfitsRest⟩, hfirst.trans hsecond⟩
    · rintro ⟨⟨hfits, hfitsRest⟩, hread⟩
      obtain ⟨middle, hfirst, hsecond⟩ := Consumes.cut hread
      have hmiddle : middle.pos ≤ middle.buf.length := hfirst.buf ▸ hfirst.bounded
      have hlast : ty.IsTail → middle.pos = middle.buf.length := by
        intro his
        have hnil := htailHere his
        subst hnil
        have hpos := hsecond.pos
        simp only [writeFields, List.length_nil, Nat.add_zero] at hpos
        rw [← hpos, hend, hsecond.buf]
      rw [← hfirst.kind] at hfitsRest
      exact ⟨(value, middle), (readField_eq_ok_iff ty r middle value hpos).mpr
        ⟨hfits, hfirst, hlast⟩, by
          dsimp only
          rw [(ih htail middle values hmiddle).mpr ⟨hfitsRest, hsecond⟩]
          rfl⟩

theorem accepting_eq_ok_iff (buf : List UInt8) (accepts : List FrameKind) (r : Reader) :
    Reader.accepting buf accepts = .ok r ↔ headerLen ≤ buf.length ∧
      (∃ kind ∈ accepts, kind.toU8 = r.kind) ∧ r.buf = buf ∧ r.pos = 2 ∧
        buf.take 2 = [protocolVersion, r.kind] := by
  unfold Reader.accepting
  rw [bind_eq_ok_iff]
  constructor
  · rintro ⟨reader, hnew, haccept⟩
    split_ifs at haccept with hany
    obtain rfl := Except.ok.inj haccept
    obtain ⟨kind, hmem, hkind⟩ := List.any_eq_true.mp hany
    have hexists : ∃ kind ∈ accepts, kind.toU8 = reader.kind := ⟨kind, hmem, by simpa using hkind⟩
    unfold Reader.new at hnew
    split at hnew
    · rename_i version tag tail
      split_ifs at hnew with hshort hversion
      obtain rfl := Except.ok.inj hnew
      rw [not_not] at hversion
      subst hversion
      exact ⟨by omega, hexists, rfl, rfl, rfl⟩
    · cases hnew
  · rintro ⟨hlen, ⟨kind, hmem, hkind⟩, hbuf, hpos, htake⟩
    obtain ⟨rbuf, rpos, rkind⟩ := r
    dsimp only at hkind hbuf hpos htake
    subst hbuf hpos hkind
    refine ⟨⟨rbuf, 2, kind.toU8⟩, ?_, ?_⟩
    · unfold Reader.new
      match rbuf, htake with
      | version :: tag :: tail, htake =>
        simp only [List.take_succ_cons, List.take_zero, List.cons.injEq, and_true] at htake
        obtain ⟨rfl, rfl⟩ := htake
        dsimp only
        rw [if_neg (Nat.not_lt.mpr hlen), if_neg (by simp)]
    · dsimp only
      rw [if_pos (List.any_eq_true.mpr ⟨kind, hmem, by simp⟩)]

/-- The 16-bit lengths of a frame fit. -/
def LengthsFit : (tys : List FieldTy) → Fields tys → Prop
  | [], _ => True
  | .bytes16 :: tys, (value, values) => value.length ≤ 65535 ∧ LengthsFit tys values
  | _ :: tys, (_, values) => LengthsFit tys values

theorem FieldsFit.lengthsFit {tag : UInt8} {tys : List FieldTy} {values : Fields tys}
    (h : FieldsFit tag tys values) : LengthsFit tys values := by
  induction tys with
  | nil => trivial
  | cons ty tys ih =>
    obtain ⟨value, values⟩ := values
    obtain ⟨hfits, hrest⟩ := h
    cases ty with
    | bytes16 => exact ⟨hfits, ih hrest⟩
    | _ => exact ih hrest

/-- What a `define_frame!` invocation has to respect for its codec to be exact: fields without a
length come last, and the tag and the fields determine each other. -/
structure Layout.Coherent (layout : Layout) : Prop where
  tailLast : TailLast layout.fields
  accepted : ∀ values, layout.kind values ∈ layout.accepts
  tagged : ∀ values kind, kind ∈ layout.accepts → FieldsFit kind.toU8 layout.fields values →
    layout.kind values = kind
  fits : ∀ values, LengthsFit layout.fields values →
    FieldsFit (layout.kind values).toU8 layout.fields values

theorem writeFields_length (tys : List FieldTy) (values : Fields tys) :
    (writeFields tys values).length = fieldsLen tys values := by
  induction tys with
  | nil => rfl
  | cons ty tys ih =>
    obtain ⟨value, values⟩ := values
    rw [writeFields, fieldsLen, List.length_append, ih]
    congr 1
    cases ty <;> simp [FieldTy.writeField, FieldTy.fieldLen]

theorem encode_length (layout : Layout) (frame : Frame layout) :
    (layout.encode frame).length = layout.encodedLen frame := by
  simp only [Layout.encode, Layout.encodedLen, List.length_append, writeFields_length,
    length_toBytes]
  rfl

/-- A coherent codec is exact: the accepted buffers are the encodings of well-shaped frames. -/
theorem decode_eq_ok_iff (layout : Layout) (hlayout : layout.Coherent) (buf : List UInt8)
    (frame : Frame layout) :
    layout.decode buf = .ok frame ↔ buf = layout.encode frame ∧
      layout.shapeHolds frame.fields = true ∧ LengthsFit layout.fields frame.fields := by
  unfold Layout.decode
  simp only [bind_eq_ok_iff, Prod.exists]
  constructor
  · rintro ⟨r₀, haccept, streamId, r₁, hstream, seq, r₂, hseq, timestamp, r₃, htime, values, r₄,
      hfields, _, hfinish, hshape⟩
    obtain ⟨-, ⟨kind, hmem, hkind⟩, hbuf, hpos, htake⟩ := (accepting_eq_ok_iff _ _ _).mp haccept
    obtain ⟨hstreamLt, h₁⟩ := (scalar_eq_ok_iff _ _ _ _).mp hstream
    obtain ⟨hseqLt, h₂⟩ := (scalar_eq_ok_iff _ _ _ _).mp hseq
    obtain ⟨htimeLt, h₃⟩ := (scalar_eq_ok_iff _ _ _ _).mp htime
    have hend : r₄.pos = r₄.buf.length := by
      unfold Reader.finish at hfinish
      split_ifs at hfinish with hend
      exact hend
    have hfront := (h₁.trans h₂).trans h₃
    have hbound : r₃.pos ≤ r₃.buf.length := by
      rw [hfront.buf]
      exact hfront.bounded
    obtain ⟨hfits, h₄⟩ :=
      (readFields_eq_ok_iff _ hlayout.tailLast _ _ _ hbound hend).mp hfields
    split_ifs at hshape with hshapeHolds
    obtain rfl := Except.ok.inj hshape
    rw [hfront.kind, ← hkind] at hfits
    have htag : layout.kind values = kind := hlayout.tagged values kind hmem hfits
    have hall := hfront.trans h₄
    have hdrop := hall.split
    rw [← hall.buf, hend, List.drop_length, List.append_nil, hall.buf, hbuf, hpos] at hdrop
    refine ⟨?_, hshapeHolds, hfits.lengthsFit⟩
    calc
      buf = buf.take 2 ++ buf.drop 2 := (List.take_append_drop 2 buf).symm
      _ = _ := by
        have hstreamNat : (UInt16.ofNat streamId).toNat = streamId :=
          UInt16.toNat_ofNat_of_lt hstreamLt
        have hseqNat : (UInt32.ofNat seq).toNat = seq := UInt32.toNat_ofNat_of_lt hseqLt
        have htimeNat : (UInt64.ofNat timestamp).toNat = timestamp :=
          UInt64.toNat_ofNat_of_lt htimeLt
        rw [htake, hdrop, ← hkind, ← htag, Layout.encode, hstreamNat, hseqNat, htimeNat]
        simp only [List.append_assoc]
  · rintro ⟨rfl, hshape, hlengths⟩
    let buf := layout.encode frame
    let tag := (layout.kind frame.fields).toU8
    have hlen : buf.length = headerLen + fieldsLen layout.fields frame.fields :=
      encode_length layout frame
    have hall : Consumes ⟨buf, 2, tag⟩
        (((toBytes 2 frame.streamId.toNat ++ toBytes 4 frame.seq.toNat) ++
          toBytes 8 frame.timestamp.toNat) ++ writeFields layout.fields frame.fields)
        ⟨buf, buf.length, tag⟩ := by
      refine ⟨rfl, rfl, ?_, le_rfl, ?_⟩
      · simp only [hlen, headerLen, List.length_append, length_toBytes, writeFields_length]
        omega
      · simp [buf, Layout.encode]
    obtain ⟨r₃, hfront, h₄⟩ := hall.cut
    obtain ⟨r₂, hpair, h₃⟩ := hfront.cut
    obtain ⟨r₁, h₁, h₂⟩ := hpair.cut
    have hbound : r₃.pos ≤ r₃.buf.length := by
      rw [hfront.buf]
      exact hfront.bounded
    have hfits := hlayout.fits frame.fields hlengths
    refine ⟨⟨buf, 2, tag⟩, (accepting_eq_ok_iff _ _ _).mpr ⟨hlen ▸ Nat.le_add_right _ _,
        ⟨_, hlayout.accepted frame.fields, rfl⟩, rfl, rfl, rfl⟩,
      _, r₁, (scalar_eq_ok_iff _ _ _ _).mpr ⟨frame.streamId.toNat_lt, h₁⟩,
      _, r₂, (scalar_eq_ok_iff _ _ _ _).mpr ⟨frame.seq.toNat_lt, h₂⟩,
      _, r₃, (scalar_eq_ok_iff _ _ _ _).mpr ⟨frame.timestamp.toNat_lt, h₃⟩,
      frame.fields, _, (readFields_eq_ok_iff _ hlayout.tailLast _ _ _ hbound rfl).mpr
        ⟨by rw [hfront.kind]; exact hfits, h₄⟩, (), by simp [Reader.finish], ?_⟩
    simp [hshape]

/-- Without pictures, fitting the wire does not depend on the tag. -/
theorem LengthsFit.fieldsFit {tys : List FieldTy} {values : Fields tys} (tag : UInt8)
    (hvideo : FieldTy.video ∉ tys) (h : LengthsFit tys values) : FieldsFit tag tys values := by
  induction tys with
  | nil => trivial
  | cons ty tys ih =>
    obtain ⟨value, values⟩ := values
    rw [List.mem_cons, not_or] at hvideo
    cases ty with
    | bytes16 => exact ⟨h.1, ih hvideo.2 h.2⟩
    | video => exact absurd rfl hvideo.1
    | _ => exact ⟨trivial, ih hvideo.2 h⟩

theorem coherent_of_kind_eq (layout : Layout) (kind : FrameKind)
    (hkind : ∀ values, layout.kind values = kind) (haccepts : layout.accepts = [kind])
    (htail : TailLast layout.fields) (hvideo : FieldTy.video ∉ layout.fields) :
    layout.Coherent where
  tailLast := htail
  accepted := by
    intro values
    rw [hkind, haccepts]
    exact List.mem_singleton_self kind
  tagged := by
    intro values other hother _
    rw [haccepts, List.mem_singleton] at hother
    rw [hkind, hother]
  fits := fun values hlengths ↦ hlengths.fieldsFit _ hvideo

/-- Video is the one frame whose tag is chosen by its data. -/
theorem videoFrame_coherent : videoFrame.Coherent where
  tailLast := by simp [videoFrame, TailLast, FieldTy.IsTail]
  accepted := by
    rintro ⟨width, height, data, ⟨⟩⟩
    cases data <;> simp [videoFrame, VideoData.kind]
  tagged := by
    rintro ⟨width, height, data, ⟨⟩⟩ kind hkind ⟨-, -, hdata, -⟩
    have hkinds : kind = .videoGray ∨ kind = .videoRgb := by simpa [videoFrame] using hkind
    rcases hkinds with rfl | rfl <;> cases data <;>
      simp_all [FieldTy.Fits, VideoData.kind, FrameKind.toU8, videoFrame]
  fits := by
    rintro ⟨width, height, data, ⟨⟩⟩ -
    refine ⟨trivial, trivial, ?_, trivial⟩
    cases data <;> simp [FieldTy.Fits, VideoData.kind, FrameKind.toU8, videoFrame]

theorem Decodable.coherent (kind : Decodable) : kind.layout.Coherent := by
  cases kind with
  | video => exact videoFrame_coherent
  | spectrum =>
    exact coherent_of_kind_eq spectrumFrame .spectrum (fun _ ↦ rfl) rfl
      (by simp [spectrumFrame, TailLast, FieldTy.IsTail]) (by decide)
  | audio =>
    exact coherent_of_kind_eq audioFrame .audioOpus (fun _ ↦ rfl) rfl
      (by simp [audioFrame, TailLast, FieldTy.IsTail]) (by decide)
  | rangeDoppler =>
    exact coherent_of_kind_eq rangeDopplerFrame .rangeDoppler (fun _ ↦ rfl) rfl
      (by simp [rangeDopplerFrame, TailLast, FieldTy.IsTail]) (by decide)
  | spatialSpectrum =>
    exact coherent_of_kind_eq spatialSpectrumFrame .spatialSpectrum (fun _ ↦ rfl) rfl
      (by simp [spatialSpectrumFrame, TailLast, FieldTy.IsTail]) (by decide)
  | visibility =>
    exact coherent_of_kind_eq visibilityFrame .visibility (fun _ ↦ rfl) rfl
      (by simp [visibilityFrame, TailLast, FieldTy.IsTail]) (by decide)
  | fusionGrid =>
    exact coherent_of_kind_eq fusionGridFrame .fusionGrid (fun _ ↦ rfl) rfl
      (by simp [fusionGridFrame, TailLast, FieldTy.IsTail]) (by decide)

/-- Every decodable frame kind round-trips in both directions. -/
theorem codec_bijective (kind : Decodable) :
    (∀ frame : Frame kind.layout, kind.layout.shapeHolds frame.fields = true →
      LengthsFit kind.layout.fields frame.fields →
        kind.layout.decode (kind.layout.encode frame) = .ok frame ∧
          (kind.layout.encode frame).length = kind.layout.encodedLen frame) ∧
    (∀ (buf : List UInt8) (frame : Frame kind.layout),
      kind.layout.decode buf = .ok frame → kind.layout.encode frame = buf) := by
  constructor
  · intro frame hshape hlengths
    exact ⟨(decode_eq_ok_iff _ kind.coherent _ frame).mpr ⟨rfl, hshape, hlengths⟩,
      encode_length _ frame⟩
  · intro buf frame hdecode
    exact ((decode_eq_ok_iff _ kind.coherent buf frame).mp hdecode).1.symm

/-- A one-pixel colour picture round-trips. -/
theorem codec_bijective_pixel :
    let frame : Frame videoFrame := ⟨1, 2, 3, (1, 1, .rgb [7, 8, 9], ())⟩
    videoFrame.decode (videoFrame.encode frame) = .ok frame ∧
      (videoFrame.encode frame).length = 23 :=
  (codec_bijective .video).1 ⟨1, 2, 3, (1, 1, .rgb [7, 8, 9], ())⟩ (by decide)
    (by simp [Decodable.layout, videoFrame, LengthsFit])

end Sdrmm.WireFrame
