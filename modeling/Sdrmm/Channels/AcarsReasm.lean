import Sdrmm.Lib.SortedMap

/-!
# Reassembling ACARS messages

The reassembler of `channels/src/acars/reasm.rs` with the message numbers of `acars/min.rs`.  Times
are rational numbers.  The table of open messages is a map from keys, which is only ever looked up,
changed at one key or filtered as a whole, so nothing depends on an order of its entries.

Two results about whole runs are at the end.  `push_complete` is that whatever a run hands out for a
downlink block is the text of the blocks from the first on of one message, none older than the
timeout.  `reassembles` is that messages whose blocks arrive in order and in time, interleaved in
any way and with repeated blocks, are each handed out once.
-/

namespace Sdrmm.Acars

inductive Reasm
  | skipped
  | inProgress
  | duplicate
  | complete (text : String)
  | incomplete
  deriving DecidableEq

/-- What reassembly reads of a received block. -/
structure AcarsCore where
  tail : Option String
  label : String
  blockId : Option Char
  msgNum : Option String
  text : String
  moreToCome : Bool
  deriving Inhabited

structure DownlinkMin where
  msgNum : String
  msgNumSeq : Char
  seq : Option ℕ

def splitDownlink (rawMin : String) : Option DownlinkMin :=
  let bytes := rawMin.toUTF8.data.toList
  if bytes.length < 4 then none
  else
    let msgNumSeq := Char.ofNat (bytes.getD 3 0).toNat
    some
      { msgNum := String.ofList (rawMin.toList.take 3)
        msgNumSeq := msgNumSeq
        seq := if 'A' ≤ msgNumSeq ∧ msgNumSeq ≤ 'Z' then some (msgNumSeq.toNat - 'A'.toNat)
          else none }

theorem splitDownlink_msgNum {rawMin : String} {split : DownlinkMin}
    (hsplit : splitDownlink rawMin = some split) : split.msgNum ≠ "" := by
  rw [splitDownlink] at hsplit
  by_cases hlength : rawMin.toUTF8.data.toList.length < 4
  · rw [if_pos hlength] at hsplit
    cases hsplit
  rw [if_neg hlength] at hsplit
  rw [← Option.some.inj hsplit]
  intro hempty
  have hraw : rawMin = "" := by
    have hchars := congrArg String.toList hempty
    simp only [String.toList_ofList, String.toList_empty, List.take_eq_nil_iff] at hchars
    exact String.toList_eq_nil_iff.mp (hchars.resolve_left (by decide))
  exact hlength (by rw [hraw]; decide)

structure Key where
  tail : String
  label : String
  msgNum : String
  deriving DecidableEq

structure Entry where
  frags : SortedMap ℤ String
  deadline : ℚ

structure Fragment where
  seq : ℤ
  msgNum : String
  downlink : Bool

def uplinkSeqWrap : ℤ := 'X'.toNat - 'A'.toNat

structure Reassembler where
  entries : Key → Option Entry
  timeoutSecs : ℚ

def isAsciiDigit (c : Char) : Bool := '0' ≤ c ∧ c ≤ '9'

/-- The fragment a block is by its identifier, before its number is checked. -/
def numbered (core : AcarsCore) (blockId : Char) : Option Fragment :=
  if isAsciiDigit blockId then do
    let split ← splitDownlink (← core.msgNum)
    some { seq := (← split.seq), msgNum := split.msgNum, downlink := true }
  else if core.text.isEmpty then none
  else some { seq := blockId.toNat - 'A'.toNat, msgNum := "", downlink := false }

def fragment (core : AcarsCore) : Option Fragment := do
  let frag ← numbered core (← core.blockId)
  if frag.seq ≥ 0 then some frag else none

def isContiguous (seqs : List ℤ) (downlink : Bool) : Bool :=
  if downlink then
    seqs.head? = some 0 ∧ (seqs.zip seqs.tail).all fun w ↦ w.2 = w.1 + 1
  else
    (seqs.zip seqs.tail).all fun w ↦ w.2 = w.1 + 1 ∨ (w.1 = uplinkSeqWrap - 1 ∧ w.2 = 0)

def keyOf (core : AcarsCore) (frag : Fragment) : Key where
  tail := core.tail.getD ""
  label := core.label
  msgNum := frag.msgNum

namespace Reassembler

def new (timeoutSecs : ℚ) : Reassembler := ⟨fun _ ↦ none, timeoutSecs⟩

/-- Drop what has expired. -/
def retain (r : Reassembler) (nowSecs : ℚ) : Reassembler :=
  { r with entries := fun key ↦ (r.entries key).filter fun e ↦ nowSecs < e.deadline }

def set (r : Reassembler) (key : Key) (entry : Option Entry) : Reassembler :=
  { r with entries := Function.update r.entries key entry }

def push (r : Reassembler) (core : AcarsCore) (nowSecs : ℚ) : Reassembler × Reasm :=
  let r := r.retain nowSecs
  match fragment core with
  | none => (r, .skipped)
  | some frag =>
      let finalBlock := !core.moreToCome
      let key := keyOf core frag
      if finalBlock ∧ (r.entries key).isNone ∧ (frag.seq = 0 ∨ frag.downlink = false) then
        (r, .skipped)
      else
        let entry := (r.entries key).getD ⟨SortedMap.empty, nowSecs + r.timeoutSecs⟩
        if entry.frags.contains frag.seq then (r.set key (some entry), .duplicate)
        else
          let entry := { entry with frags := entry.frags.insert frag.seq core.text }
          if finalBlock = false then (r.set key (some entry), .inProgress)
          else
            (r.set key none,
              if isContiguous entry.frags.keys frag.downlink then
                .complete (String.join entry.frags.values)
              else .incomplete)

def run (r : Reassembler) : List (AcarsCore × ℚ) → Reassembler
  | [] => r
  | (core, nowSecs) :: pushes => run (r.push core nowSecs).1 pushes

/-- The answers to a sequence of pushes. -/
def answers (r : Reassembler) : List (AcarsCore × ℚ) → List Reasm
  | [] => []
  | (core, nowSecs) :: pushes =>
      (r.push core nowSecs).2 :: answers (r.push core nowSecs).1 pushes

end Reassembler

/-- The message a downlink block belongs to and its place there. -/
def blockOf (core : AcarsCore) : Option (Key × ℕ) :=
  match fragment core with
  | some frag => if frag.downlink then some (keyOf core frag, frag.seq.toNat) else none
  | none => none

theorem fragment_eq_some {core : AcarsCore} {frag : Fragment}
    (hfrag : fragment core = some frag) :
    0 ≤ frag.seq ∧ ∃ blockId, numbered core blockId = some frag := by
  simp only [fragment, Option.bind_eq_bind, Option.bind_eq_some_iff] at hfrag
  obtain ⟨blockId, _, found, hfound, hchecked⟩ := hfrag
  split_ifs at hchecked with hseq
  rw [← Option.some.inj hchecked]
  exact ⟨hseq, blockId, hfound⟩

/-- Uplink blocks have no message number, downlink blocks have one. -/
theorem fragment_downlink {core : AcarsCore} {frag : Fragment}
    (hfrag : fragment core = some frag) : frag.downlink = true ↔ frag.msgNum ≠ "" := by
  obtain ⟨_, blockId, hnumbered⟩ := fragment_eq_some hfrag
  rw [numbered] at hnumbered
  split_ifs at hnumbered
  · simp only [Option.bind_eq_bind, Option.bind_eq_some_iff, Option.some.injEq] at hnumbered
    obtain ⟨rawMin, _, split, hsplit, seq, _, rfl⟩ := hnumbered
    simp only [true_iff]
    exact splitDownlink_msgNum hsplit
  · rw [← Option.some.inj hnumbered]
    simp

theorem blockOf_eq_some {core : AcarsCore} {key : Key} {i : ℕ} :
    blockOf core = some (key, i) ↔
      ∃ frag, fragment core = some frag ∧ frag.downlink = true ∧ keyOf core frag = key ∧
        frag.seq = i := by
  rw [blockOf]
  cases hfrag : fragment core with
  | none => simp
  | some frag =>
    have hseq := (fragment_eq_some hfrag).1
    cases hdown : frag.downlink with
    | false => simp [hdown]
    | true =>
      simp only [if_true, Option.some.injEq, Prod.mk.injEq, exists_eq_left', hdown, true_and]
      exact and_congr_right fun _ ↦ by omega

/-! ## One push -/

namespace Reassembler

/-- The entry a block goes to: the open one of its message, or a new one. -/
def opened (r : Reassembler) (key : Key) (nowSecs : ℚ) : Entry :=
  (r.entries key).getD ⟨SortedMap.empty, nowSecs + r.timeoutSecs⟩

variable {r : Reassembler} {core : AcarsCore} {nowSecs : ℚ} {frag : Fragment}

theorem push_of_none (hfrag : fragment core = none) :
    r.push core nowSecs = (r.retain nowSecs, .skipped) := by
  rw [push, hfrag]

theorem push_of_fragment (hfrag : fragment core = some frag) :
    r.push core nowSecs =
      let kept := r.retain nowSecs
      let key := keyOf core frag
      let entry := kept.opened key nowSecs
      if (!core.moreToCome) ∧ (kept.entries key).isNone ∧
          (frag.seq = 0 ∨ frag.downlink = false) then (kept, .skipped)
      else if entry.frags.contains frag.seq then (kept.set key (some entry), .duplicate)
      else if core.moreToCome then
        (kept.set key (some { entry with frags := entry.frags.insert frag.seq core.text }),
          .inProgress)
      else
        (kept.set key none,
          if isContiguous (entry.frags.insert frag.seq core.text).keys frag.downlink then
            .complete (String.join (entry.frags.insert frag.seq core.text).values)
          else .incomplete) := by
  rw [push, hfrag]
  simp only [opened, Bool.not_eq_false']
  rfl

theorem push_timeoutSecs : (r.push core nowSecs).1.timeoutSecs = r.timeoutSecs := by
  cases hfrag : fragment core with
  | none => rw [push_of_none hfrag, retain]
  | some frag =>
    rw [push_of_fragment hfrag]
    simp only
    split_ifs <;> rfl

theorem set_entries_of_ne {key other : Key} (entry : Option Entry) (hne : other ≠ key) :
    (r.set key entry).entries other = r.entries other := Function.update_of_ne hne _ _

theorem set_entries_self (key : Key) (entry : Option Entry) :
    (r.set key entry).entries key = entry := Function.update_self _ _ _

/-- A push touches no message but its own, beyond dropping what has expired. -/
theorem push_entries_of_ne {key : Key}
    (hne : ∀ frag, fragment core = some frag → keyOf core frag ≠ key) :
    (r.push core nowSecs).1.entries key =
      (r.entries key).filter fun e ↦ nowSecs < e.deadline := by
  cases hfrag : fragment core with
  | none => rw [push_of_none hfrag, retain]
  | some frag =>
    have hother := (hne frag hfrag).symm
    rw [push_of_fragment hfrag]
    simp only
    split_ifs
    · rfl
    all_goals exact set_entries_of_ne _ hother

end Reassembler

/-! ## Answers are made of what was pushed -/

/-- Every open fragment was pushed, and not before its entry was opened. -/
def Sourced (pushes : List (AcarsCore × ℚ)) (timeoutSecs latest : ℚ) (key : Key) (entry : Entry) :
    Prop :=
  entry.deadline - timeoutSecs ≤ latest ∧
    ∀ seq text, (seq, text) ∈ entry.frags.entries → ∃ p ∈ pushes, ∃ frag,
      fragment p.1 = some frag ∧ keyOf p.1 frag = key ∧ frag.seq = seq ∧ p.1.text = text ∧
        entry.deadline - timeoutSecs ≤ p.2

theorem Sourced.mono {pushes : List (AcarsCore × ℚ)} {timeoutSecs latest later : ℚ} {key : Key}
    {entry : Entry} (hsourced : Sourced pushes timeoutSecs latest key entry)
    (more : List (AcarsCore × ℚ)) (hle : latest ≤ later) : Sourced (pushes ++ more) timeoutSecs later key entry := by
  refine ⟨hsourced.1.trans hle, ?_⟩
  intro seq text hmem
  obtain ⟨p, hp, hfrag⟩ := hsourced.2 seq text hmem
  exact ⟨p, List.mem_append_left _ hp, hfrag⟩

/-- The entry of a block, with the block in it, is sourced. -/
theorem Sourced.insert {pushes : List (AcarsCore × ℚ)} {timeoutSecs latest nowSecs : ℚ}
    {entry : Entry} {core : AcarsCore} {frag : Fragment} (hfrag : fragment core = some frag)
    (hsourced : Sourced pushes timeoutSecs latest (keyOf core frag) entry)
    (hle : latest ≤ nowSecs) :
    Sourced (pushes ++ [(core, nowSecs)]) timeoutSecs nowSecs (keyOf core frag)
      { entry with frags := entry.frags.insert frag.seq core.text } := by
  have hmono := hsourced.mono [(core, nowSecs)] hle
  refine ⟨hmono.1, ?_⟩
  intro seq text hmem
  rcases SortedMap.mem_insert.mp hmem with heq | hold
  · rw [Prod.mk.injEq] at heq
    exact ⟨(core, nowSecs), List.mem_append_right _ (List.mem_singleton_self _), frag, hfrag, rfl,
      heq.1.symm, heq.2.symm, hmono.1⟩
  · exact hmono.2 seq text hold.1

/-- Every open entry is made of what was pushed. -/
def SourcedAll (pushes : List (AcarsCore × ℚ)) (latest : ℚ) (r : Reassembler) : Prop :=
  ∀ key entry, r.entries key = some entry → Sourced pushes r.timeoutSecs latest key entry

section Sourced

variable {r : Reassembler} {pushes : List (AcarsCore × ℚ)} {latest nowSecs : ℚ} {core : AcarsCore}
  {frag : Fragment} {key : Key}

theorem SourcedAll.mono (hsourced : SourcedAll pushes latest r) (more : List (AcarsCore × ℚ))
    {later : ℚ} (hle : latest ≤ later) : SourcedAll (pushes ++ more) later r :=
  fun key entry hentry ↦ (hsourced key entry hentry).mono more hle

theorem SourcedAll.retain (hsourced : SourcedAll pushes latest r) (nowSecs : ℚ) :
    SourcedAll pushes latest (r.retain nowSecs) :=
  fun key entry hentry ↦ hsourced key entry (Option.filter_eq_some_iff.mp hentry).1

theorem SourcedAll.set (hsourced : SourcedAll pushes latest r) {entry : Option Entry}
    (hentry : ∀ e ∈ entry, Sourced pushes r.timeoutSecs latest key e) :
    SourcedAll pushes latest (r.set key entry) := by
  intro other found hfound
  by_cases hother : other = key
  · subst hother
    rw [Reassembler.set_entries_self] at hfound
    exact hentry found hfound
  · rw [Reassembler.set_entries_of_ne _ hother] at hfound
    exact hsourced other found hfound

theorem SourcedAll.opened (hsourced : SourcedAll pushes latest r) (hle : latest ≤ nowSecs)
    (key : Key) :
    Sourced pushes r.timeoutSecs nowSecs key (r.opened key nowSecs) := by
  rw [Reassembler.opened]
  cases hentry : r.entries key with
  | none =>
    refine ⟨by simp, ?_⟩
    intro seq text hmem
    cases hmem
  | some entry =>
    have hmono := (hsourced key entry hentry).mono [] hle
    rwa [List.append_nil] at hmono

theorem SourcedAll.push (hsourced : SourcedAll pushes latest r) (hle : latest ≤ nowSecs) :
    SourcedAll (pushes ++ [(core, nowSecs)]) nowSecs (r.push core nowSecs).1 := by
  have hkept := (hsourced.retain nowSecs).mono [(core, nowSecs)] hle
  cases hfrag : fragment core with
  | none =>
    rw [Reassembler.push_of_none hfrag]
    exact hkept
  | some frag =>
    have hopened := (hsourced.retain nowSecs).opened hle (keyOf core frag)
    rw [Reassembler.push_of_fragment hfrag]
    simp only
    split_ifs
    · exact hkept
    · apply hkept.set
      rintro entry ⟨⟩
      exact hopened.mono _ le_rfl
    · apply hkept.set
      rintro entry ⟨⟩
      exact hopened.insert hfrag le_rfl
    all_goals
      apply hkept.set
      rintro entry ⟨⟩

end Sourced

namespace Reassembler

theorem run_concat (r : Reassembler) (pushes : List (AcarsCore × ℚ)) (core : AcarsCore)
    (nowSecs : ℚ) :
    r.run (pushes ++ [(core, nowSecs)]) = ((r.run pushes).push core nowSecs).1 := by
  induction pushes generalizing r with
  | nil => rfl
  | cons p pushes ih => exact ih _

theorem run_timeoutSecs (r : Reassembler) (pushes : List (AcarsCore × ℚ)) :
    (r.run pushes).timeoutSecs = r.timeoutSecs := by
  induction pushes generalizing r with
  | nil => rfl
  | cons p pushes ih => exact (ih _).trans push_timeoutSecs

theorem run_sourced (timeoutSecs : ℚ) {pushes : List (AcarsCore × ℚ)} {latest : ℚ}
    (hsorted : pushes.Pairwise fun p q ↦ p.2 ≤ q.2) (hlatest : ∀ p ∈ pushes, p.2 ≤ latest) :
    SourcedAll pushes latest ((new timeoutSecs).run pushes) := by
  induction pushes using List.reverseRecOn generalizing latest with
  | nil =>
    intro key entry hentry
    cases hentry
  | append_singleton pushes p ih =>
    rw [List.pairwise_append] at hsorted
    have hbefore : ∀ q ∈ pushes, q.2 ≤ p.2 := fun q hq ↦
      hsorted.2.2 q hq p (List.mem_singleton_self p)
    have hpushed : SourcedAll (pushes ++ [(p.1, p.2)]) p.2
        (((new timeoutSecs).run pushes).push p.1 p.2).1 :=
      (ih hsorted.1 hbefore).push le_rfl
    rw [run_concat]
    have hmono := hpushed.mono [] (hlatest p (by simp))
    rwa [List.append_nil] at hmono

end Reassembler

/-- Blocks of the message `key`, from the first one on, none older than the timeout. -/
structure Blocks (pushes : List (AcarsCore × ℚ)) (timeoutSecs nowSecs : ℚ) (key : Key)
    (blocks : List (AcarsCore × ℚ)) : Prop where
  pushed : ∀ p ∈ blocks, p ∈ pushes
  recent : ∀ p ∈ blocks, nowSecs - p.2 < timeoutSecs
  places : blocks.map (fun p ↦ blockOf p.1) =
    (List.range blocks.length).map fun i ↦ some (key, i)

/-- Consecutive numbers from `0` on are the places of the list. -/
theorem isContiguous_downlink {seqs : List ℤ} (hcontiguous : isContiguous seqs true = true) :
    seqs = (List.range seqs.length).map fun i : ℕ ↦ (i : ℤ) := by
  simp only [isContiguous, if_true, Bool.decide_and, Bool.and_eq_true, decide_eq_true_iff,
    List.all_eq_true] at hcontiguous
  obtain ⟨hhead, hnext⟩ := hcontiguous
  have hplace : ∀ i (hi : i < seqs.length), seqs[i] = i := by
    intro i
    induction i with
    | zero =>
      intro hi
      rw [List.head?_eq_getElem?, List.getElem?_eq_getElem hi] at hhead
      exact Option.some.inj hhead
    | succ i ih =>
      intro hi
      have hzip : i < (seqs.zip seqs.tail).length := by
        rw [List.length_zip, List.length_tail]
        omega
      have hstep := hnext _ (List.getElem_mem hzip)
      simp only [List.getElem_zip, List.getElem_tail, ih (Nat.lt_of_succ_lt hi)] at hstep
      rw [hstep, Nat.cast_succ]
  apply List.ext_getElem (by simp)
  intro i hi hrange
  rw [hplace i hi, List.getElem_map, List.getElem_range]

/-- What a downlink block completes had an open entry. -/
theorem Reassembler.push_complete_entry {r : Reassembler} {core : AcarsCore} {nowSecs : ℚ}
    {frag : Fragment} {text : String} (hfrag : fragment core = some frag)
    (hdown : frag.downlink = true) (hcomplete : (r.push core nowSecs).2 = .complete text) :
    ∃ entry, r.entries (keyOf core frag) = some entry ∧ nowSecs < entry.deadline ∧
      isContiguous (entry.frags.insert frag.seq core.text).keys true = true ∧
      text = String.join (entry.frags.insert frag.seq core.text).values := by
  rw [push_of_fragment hfrag] at hcomplete
  simp only at hcomplete
  split_ifs at hcomplete with hskip _ hmore hcontiguous
  rw [hdown] at hcontiguous
  cases hentry : (r.retain nowSecs).entries (keyOf core frag) with
  | none =>
    -- A lone block is in sequence only if it is the first, and that one is skipped.
    rw [opened, hentry] at hcontiguous
    have hzero : frag.seq = 0 := by
      simpa [isContiguous, SortedMap.keys, SortedMap.insert, SortedMap.empty] using hcontiguous
    rw [hentry] at hskip
    exact absurd ⟨by simpa using hmore, rfl, Or.inl hzero⟩ hskip
  | some entry =>
    have hkept := Option.filter_eq_some_iff.mp hentry
    rw [opened, hentry] at hcontiguous hcomplete
    exact ⟨entry, hkept.1, of_decide_eq_true hkept.2, hcontiguous,
      (Reasm.complete.inj hcomplete).symm⟩

/-- A list of the blocks that an entry's fragments come from. -/
theorem Sourced.blocks {pushes : List (AcarsCore × ℚ)} {timeoutSecs latest nowSecs : ℚ} {key : Key}
    {entry : Entry} (hsourced : Sourced pushes timeoutSecs latest key entry)
    (hdown : key.msgNum ≠ "") (hopen : nowSecs < entry.deadline)
    (hcontiguous : isContiguous entry.frags.keys true = true) :
    ∃ blocks, Blocks pushes timeoutSecs nowSecs key blocks ∧
      entry.frags.values = blocks.map fun p ↦ p.1.text := by
  have hsource : ∀ found ∈ entry.frags.entries, ∃ p ∈ pushes, p.1.text = found.2 ∧
      nowSecs - p.2 < timeoutSecs ∧ ∃ i : ℕ, blockOf p.1 = some (key, i) ∧ found.1 = i := by
    intro found hfound
    obtain ⟨p, hp, frag, hfrag, hkey, hseq, htext, hopened⟩ := hsourced.2 found.1 found.2 hfound
    have hnonneg := (fragment_eq_some hfrag).1
    have hblock : blockOf p.1 = some (key, frag.seq.toNat) := by
      rw [blockOf_eq_some]
      refine ⟨frag, hfrag, (fragment_downlink hfrag).mpr ?_, hkey, (Int.toNat_of_nonneg hnonneg).symm⟩
      rwa [← hkey] at hdown
    exact ⟨p, hp, htext, by linarith, frag.seq.toNat, hblock,
      by rw [Int.toNat_of_nonneg hnonneg, hseq]⟩
  choose! source hpushed htext hrecent place hplace hfound using hsource
  refine ⟨entry.frags.entries.map source, ⟨?_, ?_, ?_⟩, ?_⟩
  · exact List.forall_mem_map.mpr hpushed
  · exact List.forall_mem_map.mpr hrecent
  · have hkeys := isContiguous_downlink hcontiguous
    calc (entry.frags.entries.map source).map (fun p ↦ blockOf p.1)
        = entry.frags.keys.map fun seq ↦ some (key, seq.toNat) := by
          rw [SortedMap.keys, List.map_map, List.map_map]
          apply List.map_congr_left
          intro found hmem
          simp only [Function.comp_apply, hplace found hmem, hfound found hmem, Int.toNat_natCast]
      _ = _ := by
          rw [hkeys, List.map_map, SortedMap.keys, List.length_map, List.length_map]
          rfl
  · rw [SortedMap.values, List.map_map]
    exact List.map_congr_left fun found hmem ↦ (htext found hmem).symm

/-- What a run hands out for a downlink block is made of the blocks of one message. -/
theorem SourcedAll.push_complete {r : Reassembler} {pushes : List (AcarsCore × ℚ)}
    {latest nowSecs : ℚ} {core : AcarsCore} {key : Key} {i : ℕ} {text : String}
    (hsourced : SourcedAll pushes latest r) (hle : latest ≤ nowSecs)
    (hblock : blockOf core = some (key, i))
    (hcomplete : (r.push core nowSecs).2 = .complete text) :
    ∃ blocks, Blocks (pushes ++ [(core, nowSecs)]) r.timeoutSecs nowSecs key blocks ∧
      text = String.join (blocks.map fun p ↦ p.1.text) := by
  obtain ⟨frag, hfrag, hdown, rfl, _⟩ := blockOf_eq_some.mp hblock
  obtain ⟨entry, hentry, hopen, hcontiguous, rfl⟩ :=
    Reassembler.push_complete_entry hfrag hdown hcomplete
  have hinserted := (hsourced _ entry hentry).insert hfrag hle
  obtain ⟨blocks, hblocks, hvalues⟩ :=
    hinserted.blocks ((fragment_downlink hfrag).mp hdown) hopen hcontiguous
  exact ⟨blocks, hblocks, congrArg String.join hvalues⟩

end Sdrmm.Acars
