import Sdrmm.Channels.Dvbs
import Sdrmm.Lib.DelayLine

/-!
# The convolutional interleaver of DVB-S

`DelayBank`, `Interleaver` and `Deinterleaver` of `channels/src/datv/dvbs.rs`.  Twelve lines take the
bytes in turn, and line `branch` holds each byte for `branch * 17` of its turns; the receiver's lines
hold it for the rest of eleven times seventeen.  `Keeps` is the invariant of a bank after some bytes:
what each line has still to give.
-/

namespace Sdrmm.Dvbs

open DelayLine

def branches : ℕ := 12
def branchDepth : ℕ := 17

/-- The slot of a line that is not empty is one of its cells. -/
structure DelayBank where
  lines : Fin branches → List UInt8
  «at» : Fin branches → ℕ
  branch : Fin branches
  inside : ∀ branch, lines branch ≠ [] → «at» branch < (lines branch).length

namespace DelayBank

def new (depth : ℕ → ℕ) : DelayBank where
  lines branch := List.replicate (depth branch) 0
  «at» _ := 0
  branch := ⟨0, by decide⟩
  inside _ hline := List.length_pos_iff.mpr hline

def reset (bank : DelayBank) : DelayBank where
  lines branch := List.replicate (bank.lines branch).length 0
  «at» _ := 0
  branch := ⟨0, by decide⟩
  inside _ hline := List.length_pos_iff.mpr hline

/-- The branch whose turn comes after `branch`. -/
def following (branch : Fin branches) : Fin branches :=
  ⟨(branch + 1) % branches, Nat.mod_lt _ (by decide)⟩

def push (bank : DelayBank) (byte : UInt8) : DelayBank × UInt8 :=
  let branch := bank.branch
  let line := bank.lines branch
  if hline : line = [] then ({ bank with branch := following branch }, byte)
  else
    let slot := bank.at branch
    ({ lines := Function.update bank.lines branch (line.set slot byte)
       «at» := Function.update bank.at branch ((slot + 1) % line.length)
       branch := following branch
       inside := by
        intro other hother
        rcases eq_or_ne other branch with heq | hne
        · rw [heq, Function.update_self, Function.update_self, List.length_set]
          exact Nat.mod_lt _ (List.length_pos_iff.mpr hline)
        · rw [Function.update_of_ne hne] at hother ⊢
          rw [Function.update_of_ne hne]
          exact bank.inside other hother },
      line.get ⟨slot, bank.inside branch hline⟩)

/-- The bytes a bank gives for the bytes pushed into it. -/
def process (bank : DelayBank) : List UInt8 → List UInt8
  | [] => []
  | byte :: rest => (bank.push byte).2 :: process (bank.push byte).1 rest

/-- A bank that is reset forgets all it was given. -/
theorem reset_eq_new {bank : DelayBank} {depth : ℕ → ℕ}
    (hdepth : ∀ branch, (bank.lines branch).length = depth branch) : bank.reset = .new depth := by
  unfold reset new
  simp only [hdepth]

theorem length_process (bank : DelayBank) (stream : List UInt8) :
    (bank.process stream).length = stream.length := by
  induction stream generalizing bank with
  | nil => rfl
  | cons byte rest ih => rw [process, List.length_cons, List.length_cons, ih]

/-! ## What the lines have still to give -/

/-- The bytes that a line has still to give, the next one first. -/
def queue (bank : DelayBank) (branch : Fin branches) : List UInt8 :=
  pending (bank.lines branch) (bank.at branch)

/-- A push gives the first byte of the queue after the new byte has joined it. -/
theorem push_queue (bank : DelayBank) (byte : UInt8) :
    (bank.push byte).2 :: (bank.push byte).1.queue bank.branch = bank.queue bank.branch ++ [byte] := by
  unfold push queue
  by_cases hline : bank.lines bank.branch = []
  · simp [hline, pending]
  · simp only [dif_neg hline, Function.update_self]
    exact pending_push (bank.inside bank.branch hline) byte

theorem push_queue_of_ne (bank : DelayBank) (byte : UInt8) {branch : Fin branches}
    (hne : branch ≠ bank.branch) : (bank.push byte).1.queue branch = bank.queue branch := by
  unfold push queue
  by_cases hline : bank.lines bank.branch = []
  · simp only [dif_pos hline]
  · simp only [dif_neg hline, Function.update_of_ne hne]

theorem push_branch (bank : DelayBank) (byte : UInt8) :
    (bank.push byte).1.branch = following bank.branch := by
  unfold push
  by_cases hline : bank.lines bank.branch = []
  · simp only [dif_pos hline]
  · simp only [dif_neg hline]

/-! ## The invariant of a bank -/

/-- The first position from `time` on that belongs to a branch. -/
def turn (time branch : ℕ) : ℕ := branches * ((time + (branches - 1) - branch) / branches) + branch

/-- The byte that a bank gives at a position of the stream: that of `depth` turns before. -/
def output (depth : ℕ → ℕ) (stream : List UInt8) (position : ℕ) : UInt8 :=
  delayed 0 stream (branches * depth (position % branches)) position

/-- At `time` each line holds the outputs of its next turns. -/
structure Keeps (depth : ℕ → ℕ) (stream : List UInt8) (bank : DelayBank) (time : ℕ) : Prop where
  branch_eq : (bank.branch : ℕ) = time % branches
  queue_eq : ∀ branch : Fin branches, bank.queue branch =
    (List.range (depth branch)).map fun k ↦ output depth stream (turn time branch + branches * k)

theorem keeps_new (depth : ℕ → ℕ) (stream : List UInt8) : Keeps depth stream (.new depth) 0 where
  branch_eq := rfl
  queue_eq branch := by
    have hblank : ∀ k ∈ List.range (depth branch),
        output depth stream (turn 0 branch + branches * k) = 0 := by
      intro k hk
      rw [List.mem_range] at hk
      have hbranch : (branch : ℕ) < 12 := branch.isLt
      have hturn : turn 0 branch = branch := by
        unfold turn branches
        omega
      have hmod : (turn 0 branch + branches * k) % branches = branch := by
        rw [hturn, Nat.add_mul_mod_self_left, Nat.mod_eq_of_lt branch.isLt]
      unfold output
      rw [hmod, hturn]
      apply delayed_of_lt
      unfold branches
      omega
    rw [List.map_congr_left hblank, List.map_const', List.length_range]
    exact pending_zero _

/-- One push gives the output of its position. -/
theorem Keeps.push {depth : ℕ → ℕ} {stream : List UInt8} {bank : DelayBank} {time : ℕ}
    (hkeeps : Keeps depth stream bank time) :
    (bank.push (stream.getD time 0)).2 = output depth stream time ∧
      Keeps depth stream (bank.push (stream.getD time 0)).1 (time + 1) := by
  have hbranch : (bank.branch : ℕ) = time % 12 := hkeeps.branch_eq
  have hturn : turn time bank.branch = time := by
    unfold turn branches
    omega
  have hnext : turn (time + 1) bank.branch = time + branches := by
    unfold turn branches
    omega
  have hlast : output depth stream (time + branches * depth bank.branch) = stream.getD time 0 := by
    unfold output
    rw [Nat.add_mul_mod_self_left, ← hkeeps.branch_eq]
    exact delayed_add 0 stream _ _
  have hqueue : (bank.push (stream.getD time 0)).2 ::
      (bank.push (stream.getD time 0)).1.queue bank.branch =
        output depth stream time :: (List.range (depth bank.branch)).map
          fun k ↦ output depth stream (turn (time + 1) bank.branch + branches * k) := by
    rw [push_queue, hkeeps.queue_eq, hturn, hnext, ← hlast]
    calc
      _ = (List.range (depth bank.branch + 1)).map fun k ↦ output depth stream (time + branches * k) := by
        rw [List.range_succ, List.map_append, List.map_singleton]
      _ = _ := by
        rw [List.range_succ_eq_map, List.map_cons, List.map_map]
        congr 1
        apply List.map_congr_left
        intro k _
        rw [Function.comp_apply, Nat.mul_succ, Nat.add_assoc, Nat.add_comm branches]
  rw [List.cons.injEq] at hqueue
  refine ⟨hqueue.1, ?_, ?_⟩
  · rw [push_branch]
    change ((bank.branch : ℕ) + 1) % 12 = (time + 1) % 12
    omega
  · intro branch
    rcases eq_or_ne branch bank.branch with heq | hne
    · rw [heq]
      exact hqueue.2
    · have hlt : (branch : ℕ) < 12 := branch.isLt
      have hne' : (branch : ℕ) ≠ bank.branch := fun h ↦ hne (Fin.ext h)
      have hsame : turn (time + 1) branch = turn time branch := by
        unfold turn branches
        omega
      rw [push_queue_of_ne bank _ hne, hkeeps.queue_eq, hsame]

theorem process_keeps {depth : ℕ → ℕ} {stream : List UInt8} (rest : List UInt8) {bank : DelayBank}
    {time : ℕ} (hkeeps : Keeps depth stream bank time) (hrest : stream.drop time = rest) :
    bank.process rest =
      (List.range rest.length).map fun index ↦ output depth stream (time + index) := by
  induction rest generalizing bank time with
  | nil => rfl
  | cons byte rest ih =>
    have hlt : time < stream.length := by
      apply Nat.lt_of_not_le
      intro hle
      rw [List.drop_eq_nil_of_le hle] at hrest
      cases hrest
    rw [List.drop_eq_getElem_cons hlt, List.cons.injEq] at hrest
    have hbyte : stream.getD time 0 = byte := by
      rw [List.getD_eq_getElem _ _ hlt, hrest.1]
    have hpush := hkeeps.push
    rw [hbyte] at hpush
    rw [process, hpush.1, ih hpush.2 hrest.2, List.length_cons, List.range_succ_eq_map, List.map_cons,
      List.map_map]
    congr 1
    apply List.map_congr_left
    intro index _
    rw [Function.comp_apply, Nat.succ_eq_add_one, Nat.add_assoc, Nat.add_comm 1]

/-- What a new bank gives at each position. -/
theorem getD_process_new (depth : ℕ → ℕ) (stream : List UInt8) {position : ℕ}
    (hposition : position < stream.length) :
    ((DelayBank.new depth).process stream).getD position 0 = output depth stream position := by
  rw [process_keeps stream (keeps_new depth stream) rfl, List.getD_eq_getElem _ _ (by simpa using hposition)]
  simp

end DelayBank

/-! ## The interleaver and the deinterleaver -/

def Interleaver.new : DelayBank := .new fun branch ↦ branch * branchDepth

def Deinterleaver.new : DelayBank := .new fun branch ↦ (branches - 1 - branch) * branchDepth

/-- The interleaved stream. -/
def interleave (stream : List UInt8) : List UInt8 := Interleaver.new.process stream

/-- The stream behind the deinterleaver. -/
def deinterleave (received : List UInt8) : List UInt8 := Deinterleaver.new.process received

/-- The delay of an interleaver and a deinterleaver together. -/
def roundTrip : ℕ := (branches - 1) * branchDepth * branches

/-- A stream behind both, as long as before. -/
def restored (stream : List UInt8) : List UInt8 :=
  (List.replicate roundTrip 0 ++ stream).take stream.length

theorem length_interleave (stream : List UInt8) : (interleave stream).length = stream.length :=
  DelayBank.length_process _ stream

theorem length_deinterleave (received : List UInt8) : (deinterleave received).length = received.length :=
  DelayBank.length_process _ received

theorem length_restored (stream : List UInt8) : (restored stream).length = stream.length := by
  unfold restored
  rw [List.length_take, List.length_append]
  omega

theorem getD_restored {stream : List UInt8} {position : ℕ} (hposition : position < stream.length) :
    (restored stream).getD position 0 = delayed 0 stream roundTrip position := by
  unfold restored delayed
  rw [List.getD_eq_getElem?_getD, List.getElem?_take_of_lt hposition]
  split_ifs with hlt
  · rw [List.getElem?_append_left (by rwa [List.length_replicate])]
    simp
  · rw [List.getElem?_append_right (by rw [List.length_replicate]; omega), List.length_replicate,
      List.getD_eq_getElem?_getD]

theorem getD_deinterleave {received : List UInt8} {position : ℕ} (hposition : position < received.length) :
    (deinterleave received).getD position 0 =
      delayed 0 received (branches * ((branches - 1 - position % branches) * branchDepth)) position :=
  DelayBank.getD_process_new _ received hposition

theorem getD_interleave {stream : List UInt8} {position : ℕ} (hposition : position < stream.length) :
    (interleave stream).getD position 0 =
      delayed 0 stream (branches * (position % branches * branchDepth)) position :=
  DelayBank.getD_process_new _ stream hposition

/-- Each byte is delayed by the same number of turns, part of them in the sender and the rest in the
receiver. -/
theorem deinterleave_interleave (stream : List UInt8) :
    deinterleave (interleave stream) = restored stream := by
  apply List.ext_getElem
  · rw [length_deinterleave, length_interleave, length_restored]
  intro position hleft hright
  have hposition : position < stream.length := by rwa [length_restored] at hright
  have hsent : position < (interleave stream).length := by rwa [length_interleave]
  rw [← List.getD_eq_getElem _ 0 hleft, ← List.getD_eq_getElem _ 0 hright,
    getD_deinterleave hsent, getD_restored hposition]
  obtain ⟨lag, rest, hlag, hrest, hsum, hmod⟩ : ∃ lag rest,
      lag = branches * ((branches - 1 - position % branches) * branchDepth) ∧
      rest = branches * (position % branches * branchDepth) ∧ rest + lag = roundTrip ∧
      lag % branches = 0 := by
    have hlt : position % branches < 12 := Nat.mod_lt _ (by decide)
    refine ⟨_, _, rfl, rfl, ?_, Nat.mul_mod_right _ _⟩
    unfold branches at hlt
    unfold roundTrip branches branchDepth
    omega
  rw [← hlag]
  rcases Nat.lt_or_ge position lag with hlt | hle
  · rw [delayed_of_lt _ _ hlt, delayed_of_lt _ _ (by omega)]
  obtain ⟨index, rfl⟩ := Nat.exists_eq_add_of_le' hle
  have hturn : index % branches = (index + lag) % branches := by
    rw [Nat.add_mod, hmod, Nat.add_zero, Nat.mod_mod]
  rw [delayed_add, getD_interleave (by omega), hturn, ← hrest]
  unfold delayed
  split_ifs with hindex hround hround
  · rfl
  · omega
  · omega
  · rw [show index + lag - roundTrip = index - rest by omega]

/-! ## Bursts -/

/-- How many bytes of a codeword differ between two streams. -/
def differing (first second : List UInt8) (codeword : ℕ) : ℕ :=
  (List.range codewordLen).countP fun place ↦
    first[codeword * codewordLen + place]? ≠ second[codeword * codewordLen + place]?

/-- The place in the received stream of which the deinterleaver gives the byte. -/
def origin (position : ℕ) : ℕ := position - branches * ((branches - 1 - position % branches) * branchDepth)

/-- The deinterleaver gives a wrong byte only for one that was received wrong. -/
theorem exists_origin {sent received : List UInt8} (hlength : received.length = sent.length)
    {position : ℕ} (hne : (deinterleave received)[position]? ≠ (deinterleave sent)[position]?) :
    branches * ((branches - 1 - position % branches) * branchDepth) ≤ position ∧
      received[origin position]? ≠ sent[origin position]? := by
  have hlt : position < sent.length := by
    apply Nat.lt_of_not_le
    intro hle
    apply hne
    rw [List.getElem?_eq_none (by rw [length_deinterleave]; omega),
      List.getElem?_eq_none (by rw [length_deinterleave]; omega)]
  have hleft : position < (deinterleave received).length := by rwa [length_deinterleave, hlength]
  have hright : position < (deinterleave sent).length := by rwa [length_deinterleave]
  have hreceived := getD_deinterleave (show position < received.length by rwa [hlength])
  have hsent := getD_deinterleave hlt
  rw [List.getD_eq_getElem _ _ hleft] at hreceived
  rw [List.getD_eq_getElem _ _ hright] at hsent
  rw [List.getElem?_eq_getElem hleft, List.getElem?_eq_getElem hright, hreceived, hsent] at hne
  unfold delayed at hne
  split_ifs at hne with hshort
  · exact absurd rfl hne
  refine ⟨by omega, ?_⟩
  intro heq
  apply hne
  unfold origin at heq
  rw [List.getD_eq_getElem?_getD, List.getD_eq_getElem?_getD, heq]

/-- The bytes of a codeword lie at least twelve places apart in the received stream. -/
theorem origin_apart {codeword first second : ℕ} (hlt : first < second) (hsecond : second < codewordLen)
    (hleft : branches * ((branches - 1 - (codeword * codewordLen + first) % branches) * branchDepth) ≤
      codeword * codewordLen + first)
    (hright : branches * ((branches - 1 - (codeword * codewordLen + second) % branches) * branchDepth) ≤
      codeword * codewordLen + second) :
    origin (codeword * codewordLen + first) + 12 ≤ origin (codeword * codewordLen + second) ∨
      origin (codeword * codewordLen + second) + 12 ≤ origin (codeword * codewordLen + first) := by
  have hfirst : (codeword * codewordLen + first) % branches = first % 12 := by
    unfold codewordLen branches
    omega
  have hsnd : (codeword * codewordLen + second) % branches = second % 12 := by
    unfold codewordLen branches
    omega
  unfold origin
  rw [hfirst] at hleft ⊢
  rw [hsnd] at hright ⊢
  have hmod : first % 12 < 12 := Nat.mod_lt _ (by decide)
  have hmod' : second % 12 < 12 := Nat.mod_lt _ (by decide)
  have hsplit := Nat.div_add_mod first 12
  have hsplit' := Nat.div_add_mod second 12
  unfold branches branchDepth codewordLen at *
  rcases Nat.lt_trichotomy (first % 12) (second % 12) with hbranch | hbranch | hbranch
  all_goals omega

/-- A burst of 96 bytes reaches at most eight bytes of a codeword. -/
theorem differing_le {sent received : List UInt8} (hlength : received.length = sent.length) {start count : ℕ}
    (hcount : count ≤ 96)
    (hburst : ∀ place, place < start ∨ start + count ≤ place → received[place]? = sent[place]?)
    (codeword : ℕ) : differing (deinterleave received) (deinterleave sent) codeword ≤ 8 := by
  unfold differing
  rw [List.countP_eq_length_filter, ← List.toFinset_card_of_nodup (List.nodup_range.filter _)]
  have hwrong : ∀ place ∈ ((List.range codewordLen).filter fun place ↦
      decide ((deinterleave received)[codeword * codewordLen + place]? ≠
        (deinterleave sent)[codeword * codewordLen + place]?)).toFinset, place < codewordLen ∧
      branches * ((branches - 1 - (codeword * codewordLen + place) % branches) * branchDepth) ≤
        codeword * codewordLen + place ∧
      start ≤ origin (codeword * codewordLen + place) ∧
      origin (codeword * codewordLen + place) < start + 8 * 12 := by
    intro place hplace
    rw [List.mem_toFinset, List.mem_filter, List.mem_range, decide_eq_true_iff] at hplace
    have hfrom := exists_origin hlength hplace.2
    refine ⟨hplace.1, hfrom.1, ?_⟩
    by_contra hout
    exact hfrom.2 (hburst _ (by omega))
  apply card_le_of_apart _ (fun place ↦ origin (codeword * codewordLen + place))
  · exact fun place hplace ↦ (hwrong place hplace).2.2
  · intro first hfirst second hsecond hlt
    exact origin_apart hlt (hwrong second hsecond).1 (hwrong first hfirst).2.1 (hwrong second hsecond).2.1

/-- The deinterleaver restores the stream after 2244 zeros, and it spreads a burst of 96 bytes so that
a Reed-Solomon codeword has at most eight of them. -/
theorem interleaving (stream : List UInt8) :
    deinterleave (interleave stream) = (List.replicate 2244 0 ++ stream).take stream.length ∧
      ∀ received : List UInt8, received.length = stream.length → ∀ start count : ℕ, count ≤ 96 →
        (∀ place, place < start ∨ start + count ≤ place →
          received[place]? = (interleave stream)[place]?) →
        ∀ codeword, differing (deinterleave received)
          ((List.replicate 2244 0 ++ stream).take stream.length) codeword ≤ 8 := by
  have hrestored : deinterleave (interleave stream) =
      (List.replicate 2244 0 ++ stream).take stream.length := deinterleave_interleave stream
  refine ⟨hrestored, ?_⟩
  intro received hlength start count hcount hburst codeword
  rw [← hrestored]
  exact differing_le (by rw [hlength, length_interleave]) hcount hburst codeword

theorem interleaving_hit :
    differing (deinterleave ((interleave (List.replicate 3000 7)).set 2300 9))
      ((List.replicate 2244 0 ++ List.replicate 3000 7 : List UInt8).take
        (List.replicate 3000 (7 : UInt8)).length) 12 ≤ 8 := by
  apply (interleaving (List.replicate 3000 7)).2 _ _ 2300 1 (by decide)
  · exact fun place hplace ↦ List.getElem?_set_ne (by omega)
  · rw [List.length_set, length_interleave]

end Sdrmm.Dvbs
