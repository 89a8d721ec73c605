import Sdrmm.Channels.AcarsReasm

/-!
# Uplink messages that pass the last letter

The blocks of an uplink message are lettered 'A' to 'W' in turn and from any letter on, so a message
may go on with 'A' after 'W'.  The reassembler of `channels/src/acars/reasm.rs` keeps the blocks of a
message sorted by their letters and looks for the wrap between neighbours there, where it never is.
`uplink_complete_iff` is which messages are put together: those whose blocks with a text are at least
two, follow each other and stay within one turn of the letters.
-/

namespace Sdrmm.Acars

/-! ## Uplink messages -/

/-- What the blocks of one uplink message do not share. -/
structure UplinkBlock where
  text : String
  msgNum : Option String
  nowSecs : ℚ

/-- The letters from 'A' to 'W'. -/
def letterCount : ℕ := 23

def uplinkCore (tail : Option String) (label : String) (index : ℕ) (moreToCome : Bool)
    (block : UplinkBlock) : AcarsCore where
  tail := tail
  label := label
  blockId := some (Char.ofNat ('A'.toNat + index % letterCount))
  msgNum := block.msgNum
  text := block.text
  moreToCome := moreToCome

/-- The pushes of the blocks of a message, the first under the letter at `index`. -/
def uplink (tail : Option String) (label : String) : ℕ → List UplinkBlock → List (AcarsCore × ℚ)
  | _, [] => []
  | index, block :: blocks =>
      (uplinkCore tail label index (!blocks.isEmpty) block, block.nowSecs) ::
        uplink tail label (index + 1) blocks

def uplinkKey (tail : Option String) (label : String) : Key := ⟨tail.getD "", label, ""⟩

/-- A message of 2 to 22 blocks, pushed in order and within the timeout while no other is open that
it could be taken for. -/
structure UplinkMessage (r : Reassembler) (tail : Option String) (label : String) (start : ℕ)
    (first : UplinkBlock) (rest : List UplinkBlock) : Prop where
  start_lt : start < letterCount
  some_more : rest ≠ []
  length_le : rest.length + 1 ≤ 22
  ordered : (first :: rest).Pairwise fun a b ↦ a.nowSecs ≤ b.nowSecs
  timely : ∀ block ∈ first :: rest, block.nowSecs < first.nowSecs + r.timeoutSecs
  closed : ∀ entry ∈ r.entries (uplinkKey tail label), entry.deadline ≤ first.nowSecs

/-- Past its first blocks without a text a message has at least two blocks, all with one, and gets to
the last letter at most. -/
def WithinTurn (start : ℕ) (blocks : List UplinkBlock) : Prop :=
  let used := blocks.dropWhile fun block ↦ block.text.isEmpty
  2 ≤ used.length ∧ (∀ block ∈ used, block.text ≠ "") ∧
    (start + (blocks.length - used.length)) % letterCount + used.length ≤ letterCount

instance (start : ℕ) (blocks : List UplinkBlock) : Decidable (WithinTurn start blocks) :=
  inferInstanceAs (Decidable (_ ∧ _ ∧ _))

/-! ## Fragments -/

theorem letter_toNat {k : ℕ} (hk : k < letterCount) : (Char.ofNat ('A'.toNat + k)).toNat = 'A'.toNat + k ∧
    isAsciiDigit (Char.ofNat ('A'.toNat + k)) = false := by
  revert k
  decide

theorem fragment_uplinkCore (tail : Option String) (label : String) (index : ℕ) (moreToCome : Bool)
    (block : UplinkBlock) : fragment (uplinkCore tail label index moreToCome block) =
      if block.text = "" then none
      else some { seq := (index % letterCount : ℕ), msgNum := "", downlink := false } := by
  obtain ⟨hletter, hdigit⟩ := letter_toNat (Nat.mod_lt index (by decide : 0 < letterCount))
  simp only [fragment, uplinkCore, Option.bind_eq_bind, Option.bind_some, numbered, hdigit,
    hletter, Bool.false_eq_true, if_false, String.isEmpty_iff]
  by_cases hempty : block.text = ""
  · simp [hempty]
  · simp only [hempty, if_false, Option.bind_some]
    have hsum : ((('A'.toNat + index % letterCount : ℕ) : ℤ) - 'A'.toNat) =
        (index % letterCount : ℕ) := by
      push_cast
      ring
    rw [hsum]
    exact if_pos (Int.natCast_nonneg _)

/-- The blocks with a text, each under its index. -/
def lettered : ℕ → List UplinkBlock → List (ℕ × String)
  | _, [] => []
  | index, block :: blocks =>
      if block.text = "" then lettered (index + 1) blocks
      else (index, block.text) :: lettered (index + 1) blocks

def addFragment (frags : SortedMap ℤ String) (block : ℕ × String) : SortedMap ℤ String :=
  frags.insert (block.1 % letterCount : ℕ) block.2

/-- The blocks that have arrived, as an entry keeps them. -/
def gather (used : List (ℕ × String)) : SortedMap ℤ String := used.foldl addFragment .empty

theorem gather_concat (used : List (ℕ × String)) (block : ℕ × String) :
    gather (used ++ [block]) = (gather used).insert (block.1 % letterCount : ℕ) block.2 := by
  rw [gather, List.foldl_append]
  rfl

theorem mem_gather_keys {used : List (ℕ × String)} {key : ℤ} :
    key ∈ (gather used).keys ↔ ∃ block ∈ used, key = (block.1 % letterCount : ℕ) := by
  induction used using List.reverseRecOn with
  | nil => simp [gather, SortedMap.empty, SortedMap.keys]
  | append_singleton used block ih =>
    rw [gather_concat, SortedMap.mem_keys]
    simp only [SortedMap.mem_insert, List.mem_append, List.mem_singleton]
    rw [SortedMap.mem_keys] at ih
    constructor
    · rintro ⟨value, heq | ⟨hmem, _⟩⟩
      · exact ⟨block, Or.inr rfl, congrArg Prod.fst heq⟩
      · obtain ⟨other, hother, hkey⟩ := ih.mp ⟨value, hmem⟩
        exact ⟨other, Or.inl hother, hkey⟩
    · rintro ⟨other, hother, hkey⟩
      by_cases hlast : key = (block.1 % letterCount : ℕ)
      · exact ⟨block.2, Or.inl (by rw [hlast])⟩
      · have hold : other ∈ used := hother.resolve_right fun heq ↦ hlast (heq ▸ hkey)
        obtain ⟨value, hvalue⟩ := ih.mpr ⟨other, hold, hkey⟩
        exact ⟨value, Or.inr ⟨hvalue, hlast⟩⟩

/-! ## Pushing a message -/

/-- What the reassembler holds when blocks from `index` on are still to come: the entry of the blocks
that have arrived, or none while they all were empty. -/
structure Awaits (r : Reassembler) (key : Key) (used : List (ℕ × String)) (since : ℚ) (index : ℕ)
    (blocks : List UplinkBlock) : Prop where
  times : ∀ block ∈ blocks, since ≤ block.nowSecs ∧ block.nowSecs < since + r.timeoutSecs
  entry : (used = [] ∧ ∀ entry ∈ r.entries key, entry.deadline ≤ since) ∨
    (used ≠ [] ∧ ∃ deadline, since + r.timeoutSecs ≤ deadline ∧
      r.entries key = some ⟨gather used, deadline⟩)
  letters : ∀ block ∈ used, block.1 < index ∧ index + blocks.length ≤ block.1 + letterCount
  length_le : blocks.length ≤ letterCount

/-- The answer to the last block, given all blocks with a text. -/
def verdict (all : List (ℕ × String)) (last : String) : Reasm :=
  if last = "" then .skipped
  else if all.length = 1 then .skipped
  else if isContiguous (gather all).keys false then .complete (String.join (gather all).values)
  else .incomplete

section Push

variable {r : Reassembler} {tail : Option String} {label : String} {used : List (ℕ × String)}
  {since : ℚ} {index : ℕ} {block : UplinkBlock} {blocks : List UplinkBlock}

/-- The live entry of the message when its next block is pushed. -/
theorem Awaits.retained (hawaits : Awaits r (uplinkKey tail label) used since index (block :: blocks)) :
    (used = [] ∧ (r.retain block.nowSecs).entries (uplinkKey tail label) = none) ∨
    (used ≠ [] ∧ ∃ deadline, since + r.timeoutSecs ≤ deadline ∧
      (r.retain block.nowSecs).entries (uplinkKey tail label) = some ⟨gather used, deadline⟩) := by
  have htimes := hawaits.times block List.mem_cons_self
  rcases hawaits.entry with ⟨hused, hold⟩ | ⟨hused, deadline, hdeadline, hentry⟩
  · refine Or.inl ⟨hused, ?_⟩
    rw [Reassembler.retain, Option.filter_eq_none_iff]
    intro entry hentry
    have := hold entry hentry
    simp only [decide_eq_true_iff, not_lt]
    linarith
  · refine Or.inr ⟨hused, deadline, hdeadline, ?_⟩
    exact Option.filter_eq_some_iff.mpr ⟨hentry, decide_eq_true (by linarith)⟩

/-- The letter of the next block is not among those that have arrived. -/
theorem Awaits.not_contains
    (hawaits : Awaits r (uplinkKey tail label) used since index (block :: blocks)) :
    (gather used).contains ((index % letterCount : ℕ) : ℤ) = false := by
  rw [Bool.eq_false_iff]
  intro hcontains
  have hkey := SortedMap.mem_keys.mpr (SortedMap.contains_iff.mp hcontains)
  obtain ⟨other, hother, hsame⟩ := mem_gather_keys.mp hkey
  have hletters := hawaits.letters other hother
  rw [List.length_cons] at hletters
  have hsame := Int.natCast_inj.mp hsame
  unfold letterCount at hsame hletters
  omega

/-- The rest of the message after one of its blocks that is not the last. -/
theorem Awaits.push (hawaits : Awaits r (uplinkKey tail label) used since index (block :: blocks)) :
    Awaits (r.push (uplinkCore tail label index true block) block.nowSecs).1 (uplinkKey tail label)
      (if block.text = "" then used else used ++ [(index, block.text)]) since (index + 1) blocks := by
  have hretained := hawaits.retained
  have htimes := hawaits.times block List.mem_cons_self
  have hletters : ∀ other ∈ used,
      other.1 < index + 1 ∧ index + 1 + blocks.length ≤ other.1 + letterCount := by
    intro other hother
    have := hawaits.letters other hother
    rw [List.length_cons] at this
    omega
  have hrest : ∀ later ∈ blocks, since ≤ later.nowSecs ∧ later.nowSecs <
      since + (r.push (uplinkCore tail label index true block) block.nowSecs).1.timeoutSecs := by
    intro later hlater
    rw [Reassembler.push_timeoutSecs]
    exact hawaits.times later (List.mem_cons_of_mem _ hlater)
  have hlength := hawaits.length_le
  rw [List.length_cons] at hlength
  refine ⟨hrest, ?_, ?_, by omega⟩
  · rw [Reassembler.push_timeoutSecs]
    by_cases hempty : block.text = ""
    · have hfrag := (fragment_uplinkCore tail label index true block).trans (if_pos hempty)
      rw [Reassembler.push_of_none hfrag, if_pos hempty]
      rcases hretained with ⟨hused, hnone⟩ | hopen
      · exact Or.inl ⟨hused, by simp [hnone]⟩
      · exact Or.inr hopen
    · have hfrag := (fragment_uplinkCore tail label index true block).trans (if_neg hempty)
      have hkey : keyOf (uplinkCore tail label index true block) ⟨(index % letterCount : ℕ), "", false⟩ =
          uplinkKey tail label := rfl
      have hmore : (uplinkCore tail label index true block).moreToCome = true := rfl
      have htext : (uplinkCore tail label index true block).text = block.text := rfl
      rw [Reassembler.push_of_fragment hfrag, if_neg hempty]
      simp only [hkey, hmore, htext, Bool.not_true, Bool.false_eq_true, false_and, if_false, if_true,
        Reassembler.opened]
      refine Or.inr ⟨by simp, ?_⟩
      rcases hretained with ⟨hused, hnone⟩ | ⟨_, deadline, hdeadline, hentry⟩
      · refine ⟨block.nowSecs + r.timeoutSecs, by linarith, ?_⟩
        subst hused
        rw [hnone, Option.getD_none, if_neg (by simp [SortedMap.contains, SortedMap.empty]),
          Reassembler.set_entries_self]
        rfl
      · refine ⟨deadline, hdeadline, ?_⟩
        rw [hentry, Option.getD_some, hawaits.not_contains, if_neg Bool.false_ne_true,
          Reassembler.set_entries_self, gather_concat]
  · by_cases hempty : block.text = ""
    · rwa [if_pos hempty]
    · rw [if_neg hempty]
      intro other hother
      rcases List.mem_append.mp hother with hold | hnew
      · exact hletters other hold
      · rw [List.mem_singleton.mp hnew]
        omega

/-- The answer to the last block. -/
theorem Awaits.push_last (hawaits : Awaits r (uplinkKey tail label) used since index [block]) :
    (r.push (uplinkCore tail label index false block) block.nowSecs).2 =
      verdict (used ++ lettered index [block]) block.text := by
  have hretained := hawaits.retained
  by_cases hempty : block.text = ""
  · have hfrag := (fragment_uplinkCore tail label index false block).trans (if_pos hempty)
    rw [Reassembler.push_of_none hfrag, verdict, if_pos hempty]
  · have hfrag := (fragment_uplinkCore tail label index false block).trans (if_neg hempty)
    have hkey : keyOf (uplinkCore tail label index false block) ⟨(index % letterCount : ℕ), "", false⟩ =
        uplinkKey tail label := rfl
    have hlast : (uplinkCore tail label index false block).moreToCome = false := rfl
    have htext : (uplinkCore tail label index false block).text = block.text := rfl
    have hlettered : lettered index [block] = [(index, block.text)] := if_neg hempty
    rw [Reassembler.push_of_fragment hfrag, verdict, if_neg hempty, hlettered]
    simp only [hkey, hlast, htext, Bool.not_false, true_and, or_true, and_true, if_false,
      Bool.false_eq_true, Reassembler.opened]
    rcases hretained with ⟨hused, hnone⟩ | ⟨hused, deadline, _, hentry⟩
    · rw [hused, hnone]
      rfl
    · have hlength : ¬(used ++ [(index, block.text)]).length = 1 := by
        have := List.length_pos_iff.mpr hused
        rw [List.length_append, List.length_singleton]
        omega
      rw [hentry, Option.isNone_some, if_neg Bool.false_ne_true, Option.getD_some,
        hawaits.not_contains, if_neg Bool.false_ne_true, if_neg hlength, gather_concat]

/-- The answer to the last of all blocks that are still to come. -/
theorem Awaits.answers_getLast?
    (hawaits : Awaits r (uplinkKey tail label) used since index (block :: blocks)) :
    (r.answers (uplink tail label index (block :: blocks))).getLast? =
      some (verdict (used ++ lettered index (block :: blocks))
        ((block :: blocks).getLast (List.cons_ne_nil _ _)).text) := by
  induction blocks generalizing r used index block with
  | nil =>
    rw [uplink, uplink, Reassembler.answers, Reassembler.answers]
    exact congrArg some hawaits.push_last
  | cons second blocks ih =>
    have hnext := ih hawaits.push
    have hall : (if block.text = "" then used else used ++ [(index, block.text)]) ++
        lettered (index + 1) (second :: blocks) =
          used ++ lettered index (block :: second :: blocks) := by
      rw [lettered.eq_2 index]
      split_ifs
      · rfl
      · rw [List.append_assoc, List.singleton_append]
    rw [hall] at hnext
    rw [List.getLast_cons (List.cons_ne_nil _ _), ← hnext]
    have hanswers : r.answers (uplink tail label index (block :: second :: blocks)) =
        (r.push (uplinkCore tail label index true block) block.nowSecs).2 ::
          (r.push (uplinkCore tail label index true block) block.nowSecs).1.answers
            (uplink tail label (index + 1) (second :: blocks)) := rfl
    rw [hanswers]
    exact List.getLast?_cons_cons

end Push

/-! ## Contiguous letters -/

/-- Sorted numbers that follow each other leave out none between two of them. -/
theorem mem_of_isContiguous {seqs : List ℤ} (hsorted : seqs.Pairwise (· < ·))
    (hcontiguous : isContiguous seqs false = true) {a b x : ℤ} (ha : a ∈ seqs) (hb : b ∈ seqs)
    (hax : a < x) (hxb : x < b) : x ∈ seqs := by
  have hnext : ∀ i (hi : i + 1 < seqs.length), seqs[i + 1] = seqs[i] + 1 := by
    intro i hi
    have hlt := List.pairwise_iff_getElem.mp hsorted i (i + 1) (by omega) hi (by omega)
    simp only [isContiguous, Bool.false_eq_true, if_false, List.all_eq_true,
      decide_eq_true_iff] at hcontiguous
    have hpair : (seqs[i], seqs[i + 1]) ∈ seqs.zip seqs.tail := by
      rw [List.mem_iff_getElem]
      refine ⟨i, ?_, ?_⟩
      · rw [List.length_zip, List.length_tail]
        omega
      · rw [List.getElem_zip, List.getElem_tail]
    rcases hcontiguous _ hpair with hstep | ⟨hwrap, hzero⟩
    · exact hstep
    · have hlast : seqs[i] = uplinkSeqWrap - 1 := hwrap
      have hfirst : seqs[i + 1] = 0 := hzero
      rw [hlast, hfirst] at hlt
      exact absurd hlt (by decide)
  have hplace : ∀ i (hi : i < seqs.length), seqs[i] = seqs[0] + i := by
    intro i
    induction i with
    | zero => simp
    | succ i ih =>
      intro hi
      rw [hnext i hi, ih (by omega)]
      push_cast
      ring
  obtain ⟨i, hi, rfl⟩ := List.getElem_of_mem ha
  obtain ⟨j, hj, rfl⟩ := List.getElem_of_mem hb
  rw [hplace i hi] at hax
  rw [hplace j hj] at hxb
  have hk : (x - seqs[0]).toNat < seqs.length := by omega
  have hx : seqs[(x - seqs[0]).toNat] = x := by
    rw [hplace _ hk]
    omega
  exact hx ▸ List.getElem_mem hk

theorem gather_keys_sorted (used : List (ℕ × String)) : (gather used).keys.Pairwise (· < ·) :=
  List.pairwise_map.mpr (gather used).sorted

section Letters

variable {used : List (ℕ × String)} {low high : ℕ}

/-- Blocks over less than a turn whose letters are contiguous do not wrap and leave none out. -/
theorem unwrapped_of_isContiguous (hcontiguous : isContiguous (gather used).keys false = true)
    (hlow : ∃ text, (low, text) ∈ used) (hhigh : ∃ text, (high, text) ∈ used)
    (hrange : ∀ block ∈ used, low ≤ block.1 ∧ block.1 ≤ high) (hspan : high < low + 22) :
    low % letterCount + (high - low) < letterCount ∧
      ∀ index, low ≤ index → index ≤ high → ∃ text, (index, text) ∈ used := by
  have hkey {index : ℕ} : (∃ text, (index, text) ∈ used) →
      ((index % letterCount : ℕ) : ℤ) ∈ (gather used).keys := by
    rintro ⟨text, hmem⟩
    exact mem_gather_keys.mpr ⟨_, hmem, rfl⟩
  have hbetween (x : ℤ) {a b : ℤ} (ha : a ∈ (gather used).keys) (hb : b ∈ (gather used).keys)
      (hax : a < x) (hxb : x < b) : x ∈ (gather used).keys :=
    mem_of_isContiguous (gather_keys_sorted used) hcontiguous ha hb hax hxb
  have hle : low ≤ high := by
    obtain ⟨text, hmem⟩ := hlow
    exact (hrange _ hmem).2
  have hunwrapped : low % letterCount + (high - low) < letterCount := by
    by_contra! hwrap
    -- The letter before the first one would have to be there.
    have hbefore := hbetween ((low % letterCount : ℕ) - 1) (hkey hhigh) (hkey hlow)
      (by unfold letterCount at hwrap ⊢; omega) (by omega)
    obtain ⟨block, hblock, hsame⟩ := mem_gather_keys.mp hbefore
    have := hrange block hblock
    unfold letterCount at hwrap hsame
    omega
  refine ⟨hunwrapped, ?_⟩
  intro index hindexLow hindexHigh
  rcases hindexLow.eq_or_lt with rfl | hbelow
  · exact hlow
  rcases hindexHigh.eq_or_lt with rfl | habove
  · exact hhigh
  have hinside := hbetween (index % letterCount : ℕ) (hkey hlow) (hkey hhigh)
    (by unfold letterCount at hunwrapped ⊢; omega) (by unfold letterCount at hunwrapped ⊢; omega)
  obtain ⟨block, hblock, hsame⟩ := mem_gather_keys.mp hinside
  have hblockRange := hrange block hblock
  have hindex : block.1 = index := by
    unfold letterCount at hsame
    omega
  exact ⟨block.2, hindex ▸ hblock⟩

end Letters

/-! ## Blocks with and without a text -/

theorem lettered_append (index : ℕ) (a b : List UplinkBlock) :
    lettered index (a ++ b) = lettered index a ++ lettered (index + a.length) b := by
  induction a generalizing index with
  | nil => rfl
  | cons block a ih =>
    rw [List.cons_append, lettered, lettered, ih, List.length_cons, Nat.add_right_comm, Nat.add_assoc]
    split_ifs <;> rfl

theorem lettered_eq_nil {index : ℕ} {blocks : List UplinkBlock}
    (hempty : ∀ block ∈ blocks, block.text = "") : lettered index blocks = [] := by
  induction blocks generalizing index with
  | nil => rfl
  | cons block blocks ih =>
    rw [List.forall_mem_cons] at hempty
    rw [lettered, if_pos hempty.1, ih hempty.2]

theorem lettered_eq_map {index : ℕ} {blocks : List UplinkBlock}
    (hfull : ∀ block ∈ blocks, block.text ≠ "") :
    lettered index blocks = (blocks.zipIdx index).map fun x ↦ (x.2, x.1.text) := by
  induction blocks generalizing index with
  | nil => rfl
  | cons block blocks ih =>
    rw [List.forall_mem_cons] at hfull
    rw [lettered, if_neg hfull.1, ih hfull.2, List.zipIdx_cons, List.map_cons]

theorem mem_lettered {index : ℕ} {blocks : List UplinkBlock} {entry : ℕ × String} :
    entry ∈ lettered index blocks ↔ ∃ (place : ℕ) (block : UplinkBlock),
      blocks[place]? = some block ∧ block.text ≠ "" ∧ entry = (index + place, block.text) := by
  induction blocks generalizing index with
  | nil => simp [lettered]
  | cons first blocks ih =>
    have hrest : entry ∈ lettered (index + 1) blocks ↔ ∃ (place : ℕ) (block : UplinkBlock),
        (first :: blocks)[place + 1]? = some block ∧ block.text ≠ "" ∧
          entry = (index + (place + 1), block.text) := by
      rw [ih]
      simp only [List.getElem?_cons_succ, Nat.add_assoc, Nat.add_comm 1]
    have hsplit : entry ∈ lettered index (first :: blocks) ↔
        (first.text ≠ "" ∧ entry = (index, first.text)) ∨ entry ∈ lettered (index + 1) blocks := by
      rw [lettered]
      by_cases hempty : first.text = ""
      · simp [hempty]
      · simp [hempty]
    rw [hsplit, hrest]
    constructor
    · rintro (⟨hfull, rfl⟩ | ⟨place, block, hblock⟩)
      · exact ⟨0, first, rfl, hfull, rfl⟩
      · exact ⟨place + 1, block, hblock⟩
    · rintro ⟨place, block, hblock, hfull, heq⟩
      cases place with
      | zero =>
        obtain rfl := Option.some.inj hblock
        exact Or.inl ⟨hfull, heq⟩
      | succ place => exact Or.inr ⟨place, block, hblock, hfull, heq⟩

/-- Blocks under growing letters are kept in the order they came in. -/
theorem gather_entries {used : List (ℕ × String)}
    (hsorted : used.Pairwise fun a b ↦ a.1 % letterCount < b.1 % letterCount) :
    (gather used).entries = used.map fun block ↦ (((block.1 % letterCount : ℕ) : ℤ), block.2) := by
  induction used using List.reverseRecOn with
  | nil => rfl
  | append_singleton used block ih =>
    rw [List.pairwise_append] at hsorted
    have hentries := ih hsorted.1
    rw [gather_concat, SortedMap.insert_entries_of_lt, hentries, List.map_append]
    · rfl
    · intro entry hentry
      rw [hentries] at hentry
      obtain ⟨other, hother, rfl⟩ := List.mem_map.mp hentry
      exact Int.ofNat_lt.mpr (hsorted.2.2 other hother block (List.mem_singleton_self _))

/-- Within one turn the blocks of a message come out in their order. -/
theorem gather_lettered {index : ℕ} {blocks : List UplinkBlock}
    (hfull : ∀ block ∈ blocks, block.text ≠ "")
    (hturn : index % letterCount + blocks.length ≤ letterCount) :
    isContiguous (gather (lettered index blocks)).keys false = true ∧
      (gather (lettered index blocks)).values = blocks.map (·.text) := by
  have hletter (place : ℕ) (hplace : place < blocks.length) :
      (index + place) % letterCount = index % letterCount + place := by
    rw [Nat.add_mod, Nat.mod_eq_of_lt (a := place) (by omega), Nat.mod_eq_of_lt (by omega)]
  have hsorted : (lettered index blocks).Pairwise
      fun a b ↦ a.1 % letterCount < b.1 % letterCount := by
    rw [lettered_eq_map hfull, List.pairwise_map, List.pairwise_iff_getElem]
    intro i j hi hj hij
    rw [List.length_zipIdx] at hi hj
    simp only [List.getElem_zipIdx]
    rw [hletter i hi, hletter j hj]
    omega
  have hentries := gather_entries hsorted
  rw [lettered_eq_map hfull, List.map_map] at hentries
  constructor
  · have hkeys : (gather (lettered index blocks)).keys =
        (List.range' index blocks.length).map fun i ↦ ((i % letterCount : ℕ) : ℤ) := by
      rw [SortedMap.keys, lettered_eq_map hfull, hentries, List.map_map,
        ← List.zipIdx_map_snd index blocks, List.map_map]
      rfl
    rw [hkeys]
    simp only [isContiguous, Bool.false_eq_true, if_false, List.all_eq_true, decide_eq_true_iff]
    intro w hw
    obtain ⟨i, hi, rfl⟩ := List.getElem_of_mem hw
    rw [List.length_zip, List.length_tail, List.length_map, List.length_range'] at hi
    left
    simp only [List.getElem_zip, List.getElem_tail, List.getElem_map, List.getElem_range', one_mul]
    rw [hletter i (by omega), hletter (i + 1) (by omega)]
    push_cast
    ring
  · rw [SortedMap.values, lettered_eq_map hfull, hentries, List.map_map]
    conv_rhs => rw [← List.zipIdx_map_fst index blocks, List.map_map]
    rfl

theorem join_eq_empty {texts : List String} (hempty : ∀ text ∈ texts, text = "") :
    String.join texts = "" := by
  induction texts with
  | nil => rfl
  | cons text texts ih =>
    rw [List.forall_mem_cons] at hempty
    rw [String.join_cons, ih hempty.2, hempty.1]
    rfl

/-! ## Whole messages -/

section Verdict

variable {index : ℕ} {used : List UplinkBlock}

/-- The answer to a message whose first block has a text. -/
theorem verdict_used (hsome : used ≠ []) (hfirst : (used.head hsome).text ≠ "")
    (hlength : used.length ≤ 22) {text : String}
    (hcomplete : verdict (lettered index used) (used.getLast hsome).text = .complete text) :
    2 ≤ used.length ∧ (∀ block ∈ used, block.text ≠ "") ∧
      index % letterCount + used.length ≤ letterCount := by
  have hpos := List.length_pos_iff.mpr hsome
  rw [verdict] at hcomplete
  split_ifs at hcomplete with hlast hsingle hcontiguous
  have hhead : used[0]? = some (used.head hsome) := by
    rw [List.head_eq_getElem, List.getElem?_eq_getElem hpos]
  have hend : used[used.length - 1]? = some (used.getLast hsome) := by
    rw [List.getLast_eq_getElem, List.getElem?_eq_getElem]
  have hlow : ∃ text, (index, text) ∈ lettered index used :=
    ⟨_, mem_lettered.mpr ⟨0, _, hhead, hfirst, rfl⟩⟩
  have hhigh : ∃ text, (index + (used.length - 1), text) ∈ lettered index used :=
    ⟨_, mem_lettered.mpr ⟨_, _, hend, hlast, rfl⟩⟩
  have hrange : ∀ block ∈ lettered index used,
      index ≤ block.1 ∧ block.1 ≤ index + (used.length - 1) := by
    intro block hblock
    obtain ⟨place, found, hfound, _, rfl⟩ := mem_lettered.mp hblock
    have := (List.getElem?_eq_some_iff.mp hfound).1
    simp only
    omega
  obtain ⟨hturn, hall⟩ := unwrapped_of_isContiguous hcontiguous hlow hhigh hrange (by omega)
  have hfull : ∀ block ∈ used, block.text ≠ "" := by
    intro block hblock
    obtain ⟨place, hplace, rfl⟩ := List.getElem_of_mem hblock
    obtain ⟨text, htext⟩ := hall (index + place) (by omega) (by omega)
    obtain ⟨other, found, hfound, hne, heq⟩ := mem_lettered.mp htext
    have hsame : other = place := by
      have := congrArg Prod.fst heq
      simp only at this
      omega
    rw [hsame, List.getElem?_eq_getElem hplace] at hfound
    rwa [Option.some.inj hfound]
  refine ⟨?_, hfull, by omega⟩
  rw [lettered_eq_map hfull, List.length_map, List.length_zipIdx] at hsingle
  omega

/-- The blocks of a message without the first ones that are empty. -/
theorem exists_used (blocks : List UplinkBlock) : ∃ empty,
    blocks = empty ++ blocks.dropWhile (fun block ↦ block.text.isEmpty) ∧
      ∀ block ∈ empty, block.text = "" := by
  refine ⟨blocks.takeWhile fun block ↦ block.text.isEmpty, List.takeWhile_append_dropWhile.symm, ?_⟩
  intro block hblock
  exact String.isEmpty_iff.mp (List.all_eq_true.mp List.all_takeWhile block hblock)

theorem verdict_complete_iff {start : ℕ} {blocks : List UplinkBlock} (hsome : blocks ≠ [])
    (hlength : blocks.length ≤ 22) :
    verdict (lettered start blocks) (blocks.getLast hsome).text =
        .complete (String.join (blocks.map (·.text))) ↔ WithinTurn start blocks := by
  obtain ⟨empty, hsplit, hempty⟩ := exists_used blocks
  rw [WithinTurn]
  have hfirst := List.head?_dropWhile_not (fun block : UplinkBlock ↦ block.text.isEmpty) blocks
  generalize blocks.dropWhile (fun block ↦ block.text.isEmpty) = used at hsplit hfirst ⊢
  subst hsplit
  have hlettered : lettered start (empty ++ used) = lettered (start + empty.length) used := by
    rw [lettered_append, lettered_eq_nil hempty, List.nil_append]
  have hindex : (empty ++ used).length - used.length = empty.length := by
    rw [List.length_append]
    omega
  rw [List.length_append] at hlength
  rw [hlettered, hindex]
  by_cases hused : used = []
  · subst hused
    have hlast : ((empty ++ []).getLast hsome).text = "" := by
      apply hempty
      simpa only [List.append_nil] using List.getLast_mem hsome
    rw [verdict, if_pos hlast]
    simp
  have hlast : (empty ++ used).getLast hsome = used.getLast hused := List.getLast_append_of_ne_nil _ hused
  rw [hlast]
  constructor
  · intro hcomplete
    apply verdict_used hused _ (by omega) hcomplete
    rw [List.head?_eq_some_head hused] at hfirst
    simpa using hfirst
  · rintro ⟨htwo, hfull, hturn⟩
    obtain ⟨hcontiguous, hvalues⟩ := gather_lettered hfull hturn
    have hcount : (lettered (start + empty.length) used).length = used.length := by
      rw [lettered_eq_map hfull, List.length_map, List.length_zipIdx]
    have htexts : String.join ((empty ++ used).map (·.text)) = String.join (used.map (·.text)) := by
      have hnone : String.join (empty.map (·.text)) = "" := by
        apply join_eq_empty
        intro text htext
        obtain ⟨block, hblock, rfl⟩ := List.mem_map.mp htext
        exact hempty block hblock
      rw [List.map_append, String.join_append, hnone, String.empty_append]
    rw [verdict, if_neg (hfull _ (List.getLast_mem hused)), hcount, if_neg (by omega),
      if_pos hcontiguous, hvalues, htexts]

end Verdict

section Message

variable {r : Reassembler} {tail : Option String} {label : String} {start : ℕ}
  {first : UplinkBlock} {rest : List UplinkBlock}

theorem UplinkMessage.answers_getLast? (hmessage : UplinkMessage r tail label start first rest) :
    (r.answers (uplink tail label start (first :: rest))).getLast? =
      some (verdict (lettered start (first :: rest))
        ((first :: rest).getLast (List.cons_ne_nil _ _)).text) := by
  have hordered := List.pairwise_cons.mp hmessage.ordered
  have hlength := hmessage.length_le
  have hawaits : Awaits r (uplinkKey tail label) [] first.nowSecs start (first :: rest) := by
    refine ⟨?_, Or.inl ⟨rfl, hmessage.closed⟩, ?_, ?_⟩
    · intro block hblock
      refine ⟨?_, hmessage.timely block hblock⟩
      rcases List.mem_cons.mp hblock with rfl | hlater
      · exact le_rfl
      · exact hordered.1 block hlater
    · exact fun block hblock ↦ absurd hblock List.not_mem_nil
    · rw [List.length_cons, letterCount]
      omega
  rw [hawaits.answers_getLast?, List.nil_append]

/-- Two blocks from a letter on. -/
theorem twoBlocks_message (hstart : start < letterCount) :
    UplinkMessage (.new 420) (some "N1") "H1" start ⟨"part1", none, 0⟩ [⟨"part2", none, 1⟩] where
  start_lt := hstart
  some_more := List.cons_ne_nil _ _
  length_le := by decide
  ordered := by simp
  timely := by simp [Reassembler.new]
  closed := by simp [Reassembler.new]

end Message

end Sdrmm.Acars
