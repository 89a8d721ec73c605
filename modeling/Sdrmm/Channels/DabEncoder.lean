import Sdrmm.Channels.DabMsc
import Sdrmm.Dsp.Puncture
import Sdrmm.Lib.Checked

/-!
# The encoder of a sub-channel

`TimeInterleaver` and `SubChannelEncoder` of `channels/src/dab/msc.rs`, and the puncturing of
`channels/src/dab/protection.rs`.  An index outside a line has no result, nor has a fragment of another length
than the lines.
-/

namespace Sdrmm.Dab

open Lib.Checked (Halt index)

/-- The bits of the mother code that are sent. -/
def puncture (mask coded : List Bool) : List Bool :=
  mask.zipIdx.flatMap fun (keep, position) ↦ if keep then (coded[position]?).toList else []

structure TimeInterleaver where
  lines : List (List Bool)
  position : ℕ

namespace TimeInterleaver

def new (fragment : ℕ) : TimeInterleaver where
  lines := List.replicate depth (List.replicate fragment false)
  position := 0

def push (interleaver : TimeInterleaver) (fragment : List Bool) : Except Halt (TimeInterleaver × List Bool) := do
  let line ← index interleaver.lines interleaver.position
  if line.length ≠ fragment.length then throw .panic
  let lines := interleaver.lines.set interleaver.position fragment
  let out ← (List.range fragment.length).mapM fun place ↦ do
    let delay ← index map (place % depth)
    index (← index lines ((interleaver.position + depth - delay) % depth)) place
  return ({ lines, position := (interleaver.position + 1) % depth }, out)

end TimeInterleaver

/-- The bits of some bytes, the highest first. -/
def msbBits (payload : List UInt8) : List Bool :=
  payload.flatMap fun byte ↦ [7, 6, 5, 4, 3, 2, 1, 0].map fun shift ↦ byte >>> shift &&& 1 == 1

def resize (bits : List Bool) (count : ℕ) : List Bool :=
  bits.take count ++ List.replicate (count - bits.length) false

structure SubChannelEncoder where
  protection : Protection
  interleaver : TimeInterleaver
  code : Conv7.ConvCode

namespace SubChannelEncoder

def new (protection : Protection) : SubChannelEncoder where
  protection := protection
  interleaver := .new protection.codedBits
  code := .new generators

/-- What is encoded of a frame. -/
def scrambled (encoder : SubChannelEncoder) (payload : List UInt8) : List Bool :=
  ((Prbs.new dabDispersal).applyBits (resize (msbBits payload) encoder.protection.frameBits)).1 ++
    List.replicate 6 false

def frame (encoder : SubChannelEncoder) (payload : List UInt8) : Except Halt (SubChannelEncoder × List Bool) := do
  let coded := encoder.code.encode (encoder.scrambled payload)
  let (interleaver, out) ← encoder.interleaver.push (puncture encoder.protection.mask coded)
  return ({ encoder with interleaver }, out)

/-- The fragments of some frames. -/
def fragments (encoder : SubChannelEncoder) : List (List UInt8) → Except Halt (List (List Bool))
  | [] => return []
  | payload :: payloads => do
    let (encoder, out) ← encoder.frame payload
    return out :: (← encoder.fragments payloads)

end SubChannelEncoder

/-- What a decoder gives for some fragments, and nothing for those that give no frame. -/
def SubChannelDecoder.frames (decoder : SubChannelDecoder) (out : List UInt8) :
    List (List Conv7.Soft) → List (Option (List UInt8))
  | [] => []
  | fragment :: fragments =>
    let (ready, decoder, out) := decoder.frame fragment out
    (if ready then some out else none) :: decoder.frames out fragments

end Sdrmm.Dab
