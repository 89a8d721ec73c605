import Sdrmm.Channels.Ts
import Mathlib.Data.List.Pairwise

/-!
# Sections in the payloads of a transport stream

What a sender may do with the sections of a table, and that `SectionBuffer` gives them back.  A section
begins anywhere in a payload, which then carries the start flag and the pointer to the first one that
does; behind a section a payload may be filled up with stuffing.  `Expects` is what the buffer still has
to give of a stream that is still to come, and `push_expects` its step over one payload.
-/

namespace Sdrmm.Ts

open Sdrmm.Dsp

/-! ## Sections -/

/-- A section that is not taken for stuffing, has the length it declares, fits and carries its check. -/
structure Section where
  bytes : List UInt8
  head_ne : bytes.head? ≠ some 0xFF
  length_eq : bytes.length = be16 (bytes.getD 1 0 &&& 0x0F) (bytes.getD 2 0) + 3
  length_le : bytes.length ≤ maxSection
  check : crc32Mpeg bytes = 0

namespace Section

variable (sent : Section)

theorem three_le : 3 ≤ sent.bytes.length := by
  have := sent.length_eq
  omega

theorem bytes_ne_nil : sent.bytes ≠ [] := by
  have := sent.three_le
  exact List.length_pos_iff.mp (by omega)

theorem isValid : sectionIsValid sent.bytes = true := by
  have hlong : 4 < sent.bytes.length := by
    by_contra hshort
    exact sent.head_ne (head?_of_crc32Mpeg_eq_zero sent.three_le (by omega) sent.check)
  unfold sectionIsValid
  rw [decide_eq_true hlong, sent.check]
  rfl

/-- The first three bytes of a section give its length. -/
theorem declared {data left : List UInt8} (hsplit : sent.bytes = data ++ left) (hdata : 3 ≤ data.length) :
    be16 (data.getD 1 0 &&& 0x0F) (data.getD 2 0) + 3 = sent.bytes.length := by
  rw [sent.length_eq, hsplit, List.getD_append _ _ _ _ (by omega), List.getD_append _ _ _ _ (by omega)]

end Section

/-! ## The stream of a sender -/

/-- What a byte of the stream is. -/
inductive Place
  | first | inside | stuffing
  deriving DecidableEq

/-- The bytes of a section, the first one marked. -/
def Section.marked (sent : Section) : List (UInt8 × Place) :=
  (sent.bytes.take 1).map (·, .first) ++ (sent.bytes.drop 1).map (·, .inside)

def stuffing (count : ℕ) : List (UInt8 × Place) := List.replicate count (0xFF, .stuffing)

/-- The sections in order, each with some stuffing behind it. -/
def laid : List (Section × ℕ) → List (UInt8 × Place)
  | [] => []
  | (sent, gap) :: rest => sent.marked ++ (stuffing gap ++ laid rest)

/-- The payload that carries a part of the stream, with its start flag. -/
def payload (chunk : List (UInt8 × Place)) : List UInt8 × Bool :=
  match chunk.findIdx? (·.2 = .first) with
  | none => (chunk.map Prod.fst, false)
  | some pointer => (UInt8.ofNat pointer :: chunk.map Prod.fst, true)

/-- A part of the stream, of any length, that a payload can carry: its pointer is a byte, and stuffing
lasts to its end. -/
structure Packs (chunk : List (UInt8 × Place)) : Prop where
  pointer_lt : ∀ pointer, chunk.findIdx? (·.2 = .first) = some pointer → pointer < 256
  to_end : chunk.Pairwise fun before after ↦ before.2 = .stuffing → after.2 = .stuffing

namespace SectionBuffer

/-- The payloads one after the other, with the sections of all. -/
def run (buffer : SectionBuffer) : List (List UInt8 × Bool) → List (List UInt8)
  | [] => []
  | (bytes, start) :: rest => (buffer.push bytes start).2 ++ run (buffer.push bytes start).1 rest

/-! ## The loop of the buffer -/

/-- The wanted length is not known yet, or it is that of the section. -/
def Wants (buffer : SectionBuffer) (sent : Section) : Prop :=
  buffer.want = 0 ∨ buffer.want = sent.bytes.length

/-- A section of which some bytes are missing stays in the buffer. -/
theorem collect_open {buffer : SectionBuffer} {sent : Section} {left : List UInt8} (fuel : ℕ)
    (hsplit : sent.bytes = buffer.data ++ left) (hleft : left ≠ []) (hwants : buffer.Wants sent) :
    (collect (fuel + 1) buffer).1.data = buffer.data ∧ (collect (fuel + 1) buffer).1.Wants sent ∧
      (collect (fuel + 1) buffer).2 = [] := by
  have hlength : sent.bytes.length = buffer.data.length + left.length := by
    rw [hsplit, List.length_append]
  have hpos : 0 < left.length := List.length_pos_iff.mpr hleft
  have hthree := sent.three_le
  have hmax := sent.length_le
  unfold collect
  by_cases hshort : buffer.want = 0 ∧ buffer.data.length < 3
  · rw [if_pos hshort]
    exact ⟨rfl, hwants, rfl⟩
  rw [if_neg hshort]
  rcases hwants with hwant | hwant
  · have hdeclared := sent.declared hsplit (by omega)
    rw [if_neg (by omega)]
    simp only [hwant, if_true, hdeclared]
    rw [if_pos (by omega)]
    exact ⟨rfl, .inr rfl, rfl⟩
  · rw [if_neg (by omega)]
    simp only [if_neg (show ¬buffer.want = 0 by omega)]
    rw [if_pos (by omega)]
    exact ⟨rfl, .inr hwant, rfl⟩

/-- A whole section is given; the loop goes on unless the payload ends or stuffing follows. -/
theorem collect_whole {buffer : SectionBuffer} {sent : Section} {rest : List UInt8} (fuel : ℕ)
    (hdata : buffer.data = sent.bytes ++ rest) (hwants : buffer.Wants sent) :
    collect (fuel + 1) buffer =
      if rest.head?.all (· == 0xFF) then ({}, [sent.bytes])
      else ((collect fuel { data := rest }).1, sent.bytes :: (collect fuel { data := rest }).2) := by
  have hlength : buffer.data.length = sent.bytes.length + rest.length := by
    rw [hdata, List.length_append]
  have hthree := sent.three_le
  have hmax := sent.length_le
  have hdeclared : be16 (buffer.data.getD 1 0 &&& 0x0F) (buffer.data.getD 2 0) + 3 =
      sent.bytes.length := by
    rw [hdata, List.getD_append _ _ _ _ (by omega), List.getD_append _ _ _ _ (by omega), ← sent.length_eq]
  have hwant : (if buffer.want = 0 then be16 (buffer.data.getD 1 0 &&& 0x0F) (buffer.data.getD 2 0) + 3
      else buffer.want) = sent.bytes.length := by
    rcases hwants with hzero | hknown
    · rw [if_pos hzero, hdeclared]
    · rw [if_neg (by omega), hknown]
  have htake : buffer.data.take sent.bytes.length = sent.bytes := by rw [hdata, List.take_left]
  have hdrop : buffer.data.drop sent.bytes.length = rest := by rw [hdata, List.drop_left]
  rw [collect, if_neg (by omega), if_neg (by omega)]
  simp only [hwant, htake, hdrop, sent.isValid, if_true]
  rw [if_neg (by omega)]
  rfl

theorem collect_last {buffer : SectionBuffer} {sent : Section} {rest : List UInt8} (fuel : ℕ)
    (hdata : buffer.data = sent.bytes ++ rest) (hwants : buffer.Wants sent)
    (hrest : rest.head?.all (· == 0xFF) = true) :
    collect (fuel + 1) buffer = ({}, [sent.bytes]) := by
  rw [collect_whole fuel hdata hwants, if_pos hrest]

end SectionBuffer

/-! ## Parts of the stream -/

theorem map_marked (sent : Section) : sent.marked.map Prod.fst = sent.bytes := by
  unfold Section.marked
  rw [List.map_append, List.map_map, List.map_map]
  simp only [Function.comp_def, List.map_id', List.take_append_drop]

theorem map_inside (bytes : List UInt8) : (bytes.map (·, Place.inside)).map Prod.fst = bytes := by
  rw [List.map_map]
  simp only [Function.comp_def, List.map_id']

theorem marked_eq (sent : Section) :
    ∃ byte bytes, sent.bytes = byte :: bytes ∧ byte ≠ 0xFF ∧
      sent.marked = (byte, .first) :: bytes.map (·, .inside) := by
  cases hbytes : sent.bytes with
  | nil => exact absurd hbytes sent.bytes_ne_nil
  | cons byte bytes =>
    have hne := sent.head_ne
    rw [hbytes, List.head?_cons] at hne
    refine ⟨byte, bytes, rfl, fun heq ↦ hne (by rw [heq]), ?_⟩
    unfold Section.marked
    rw [hbytes]
    rfl

/-- The sections of a sequence begin with a byte that is marked and is no stuffing. -/
theorem laid_head {sections : List (Section × ℕ)} {mark : UInt8 × Place} {stream : List (UInt8 × Place)}
    (hlaid : laid sections = mark :: stream) : mark.2 = .first ∧ mark.1 ≠ 0xFF := by
  cases sections with
  | nil => exact absurd hlaid (List.cons_ne_nil _ _).symm
  | cons sent rest =>
    obtain ⟨byte, bytes, -, hne, hmarked⟩ := marked_eq sent.1
    rw [laid, hmarked, List.cons_append, List.cons.injEq] at hlaid
    rw [← hlaid.1]
    exact ⟨rfl, hne⟩

/-- Once a part is in the stuffing, it is stuffing to its end. -/
theorem stuffing_of_head {gap : ℕ} {sections : List (Section × ℕ)} {chunk stream : List (UInt8 × Place)}
    (hgap : 0 < gap) (hchunk : chunk ≠ []) (hsplit : chunk ++ stream = stuffing gap ++ laid sections)
    (hend : chunk.Pairwise fun before after ↦ before.2 = .stuffing → after.2 = .stuffing) :
    ∃ count left, 0 < count ∧ chunk = stuffing count ∧ stream = stuffing left ++ laid sections := by
  obtain ⟨gap, rfl⟩ := Nat.exists_eq_add_of_lt hgap
  have hall : ∀ mark ∈ chunk, mark.2 = .stuffing := by
    cases chunk with
    | nil => exact absurd rfl hchunk
    | cons head chunk =>
      have hhead : head = (0xFF, .stuffing) := by
        unfold stuffing at hsplit
        rw [Nat.zero_add, List.replicate_succ, List.cons_append, List.cons_append, List.cons.injEq] at hsplit
        exact hsplit.1
      intro mark hmark
      cases List.mem_cons.mp hmark with
      | inl heq => rw [heq, hhead]
      | inr hmem => exact (List.pairwise_cons.mp hend).1 mark hmem (by rw [hhead])
  have hpos : 0 < chunk.length := List.length_pos_iff.mpr hchunk
  rcases List.append_eq_append_iff.mp hsplit with ⟨more, hstuffing, hstream⟩ | ⟨more, hmore, hlaid⟩
  · have hparts := List.append_eq_replicate_iff.mp hstuffing.symm
    exact ⟨chunk.length, more.length, hpos, hparts.2.1, by rw [hstream, hparts.2.2]; simp [stuffing]⟩
  · have hnil : more = [] := by
      cases more with
      | nil => rfl
      | cons mark more =>
        have hstuffed := hall mark (by rw [hmore]; simp)
        rw [(laid_head hlaid).1] at hstuffed
        cases hstuffed
    rw [hnil, List.append_nil] at hmore
    rw [hnil, List.nil_append] at hlaid
    exact ⟨_, 0, Nat.succ_pos _, hmore, by rw [hlaid]; rfl⟩

/-- The part of a section that a part of the stream begins with. -/
theorem marked_split {sent : Section} {chunk more : List (UInt8 × Place)} (hchunk : chunk ≠ [])
    (hmarked : sent.marked = chunk ++ more) :
    ∃ left, sent.bytes = chunk.map Prod.fst ++ left ∧ more = left.map (·, .inside) := by
  obtain ⟨byte, bytes, hbytes, -, heq⟩ := marked_eq sent
  rw [heq] at hmarked
  cases chunk with
  | nil => exact absurd rfl hchunk
  | cons head chunk =>
    rw [List.cons_append, List.cons.injEq] at hmarked
    obtain ⟨before, left, hsplit, hbefore, hleft⟩ := List.map_eq_append_iff.mp hmarked.2
    refine ⟨left, ?_, hleft.symm⟩
    rw [hbytes, hsplit, List.map_cons, ← hmarked.1, ← hbefore, map_inside, List.cons_append]

/-! ## What is still to come -/

/-- With `stream` still to come, the buffer has still to give `out`; a section is open if some of its
bytes are in the buffer. -/
def Expects (buffer : SectionBuffer) (stream : List (UInt8 × Place)) (out : List Section) : Prop :=
  ∃ left gap sections, stream = left.map (·, Place.inside) ++ (stuffing gap ++ laid sections) ∧
    ((left = [] ∧ buffer = {} ∧ out = sections.map Prod.fst) ∨
      (left ≠ [] ∧ buffer.data ≠ [] ∧ ∃ sent : Section, sent.bytes = buffer.data ++ left ∧
        buffer.Wants sent ∧ out = sent :: sections.map Prod.fst))

theorem expects_empty (gap : ℕ) (sections : List (Section × ℕ)) :
    Expects {} (stuffing gap ++ laid sections) (sections.map Prod.fst) :=
  ⟨[], gap, sections, rfl, .inl ⟨rfl, rfl, rfl⟩⟩

namespace SectionBuffer

theorem wants_new (data : List UInt8) (sent : Section) : ({ data := data } : SectionBuffer).Wants sent :=
  .inl rfl

/-- A payload that begins with a section. -/
theorem collect_laid (sections : List (Section × ℕ)) {chunk stream : List (UInt8 × Place)} {fuel : ℕ}
    (hsplit : chunk ++ stream = laid sections) (hchunk : chunk ≠ []) (hfuel : chunk.length < fuel)
    (hend : chunk.Pairwise fun before after ↦ before.2 = .stuffing → after.2 = .stuffing) :
    ∃ out, sections.map (·.1.bytes) =
        (collect fuel { data := chunk.map Prod.fst }).2 ++ out.map (·.bytes) ∧
      Expects (collect fuel { data := chunk.map Prod.fst }).1 stream out := by
  induction sections generalizing chunk fuel with
  | nil => exact absurd (List.append_eq_nil_iff.mp hsplit).1 hchunk
  | cons sent rest ih =>
    obtain ⟨fuel, rfl⟩ := Nat.exists_eq_succ_of_ne_zero (Nat.ne_zero_of_lt hfuel)
    rw [laid] at hsplit
    rcases List.append_eq_append_iff.mp hsplit with ⟨more, hmarked, hstream⟩ | ⟨more, hmore, htail⟩
    · obtain ⟨left, hleft, hinside⟩ := marked_split hchunk hmarked
      cases left with
      | nil =>
        have hlast := @collect_last { data := chunk.map Prod.fst } sent.1 [] fuel
          (by rw [hleft, List.append_nil, List.append_nil]) (wants_new _ sent.1) rfl
        rw [hlast, hstream, hinside]
        exact ⟨rest.map Prod.fst, by simp, expects_empty _ _⟩
      | cons byte left =>
        have hopen := @collect_open { data := chunk.map Prod.fst } sent.1 (byte :: left) fuel hleft
          (List.cons_ne_nil _ _) (wants_new _ sent.1)
        refine ⟨sent.1 :: rest.map Prod.fst, ?_, byte :: left, sent.2, rest, ?_, .inr ⟨List.cons_ne_nil _ _, ?_⟩⟩
        · rw [hopen.2.2]
          simp
        · rw [hstream, hinside]
        · rw [hopen.1]
          exact ⟨by simpa using hchunk, sent.1, hleft, hopen.2.1, rfl⟩
    · have hbytes : chunk.map Prod.fst = sent.1.bytes ++ more.map Prod.fst := by
        rw [hmore, List.map_append, map_marked]
      have hmarked : sent.1.marked.length = sent.1.bytes.length := by
        rw [← map_marked, List.length_map]
      have hlength : chunk.length = sent.1.bytes.length + more.length := by
        rw [hmore, List.length_append, hmarked]
      have hthree := sent.1.three_le
      have hend' : more.Pairwise fun before after ↦ before.2 = .stuffing → after.2 = .stuffing := by
        rw [hmore] at hend
        exact (List.pairwise_append.mp hend).2.1
      cases more with
      | nil =>
        have hlast := @collect_last { data := chunk.map Prod.fst } sent.1 _ fuel hbytes
          (wants_new _ sent.1) rfl
        rw [hlast, ← List.nil_append stream, ← htail]
        exact ⟨rest.map Prod.fst, by simp, expects_empty _ _⟩
      | cons mark more =>
        rcases Nat.eq_zero_or_pos sent.2 with hzero | hpos
        · -- The next section follows at once.
          rw [hzero] at htail
          obtain ⟨out, hout, hexpects⟩ := @ih _ fuel htail.symm (List.cons_ne_nil _ _)
            (by omega) hend'
          have hhead := laid_head (htail : laid rest = mark :: (more ++ stream))
          have hwhole := @collect_whole { data := chunk.map Prod.fst } sent.1 _ fuel hbytes
            (wants_new _ sent.1)
          rw [hwhole, if_neg (by simpa using hhead.2)]
          exact ⟨out, by rw [List.map_cons, hout, List.cons_append], hexpects⟩
        · obtain ⟨count, left, hcount, hstuffed, hstream⟩ :=
            stuffing_of_head hpos (List.cons_ne_nil _ _) htail.symm hend'
          obtain ⟨count, rfl⟩ := Nat.exists_eq_succ_of_ne_zero (Nat.ne_of_gt hcount)
          rw [hstuffed] at hbytes
          have hlast := @collect_last { data := chunk.map Prod.fst } sent.1 _ fuel hbytes
            (wants_new _ sent.1) rfl
          rw [hlast, hstream]
          exact ⟨rest.map Prod.fst, by simp, expects_empty _ _⟩

/-! ## Payloads -/

theorem payload_of_none {chunk : List (UInt8 × Place)} (hnone : ∀ mark ∈ chunk, mark.2 ≠ .first) :
    payload chunk = (chunk.map Prod.fst, false) := by
  have hfind : chunk.findIdx? (·.2 = .first) = none := by
    rw [List.findIdx?_eq_none_iff]
    exact fun mark hmark ↦ decide_eq_false (hnone mark hmark)
  unfold payload
  rw [hfind]

theorem findIdx?_first (left : List UInt8) (mark : UInt8 × Place) (more : List (UInt8 × Place))
    (hmark : mark.2 = .first) :
    (left.map (·, Place.inside) ++ mark :: more).findIdx? (·.2 = .first) = some left.length := by
  have hnone : (left.map (·, Place.inside)).findIdx? (·.2 = .first) = none := by
    rw [List.findIdx?_eq_none_iff]
    intro other hother
    obtain ⟨byte, -, heq⟩ := List.mem_map.mp hother
    rw [← heq]
    rfl
  rw [List.findIdx?_append, hnone, List.findIdx?_cons, if_pos (decide_eq_true hmark), Option.none_or,
    Option.map_some, List.length_map, Nat.zero_add]

theorem inside_ne_first (left : List UInt8) : ∀ mark ∈ left.map (·, Place.inside), mark.2 ≠ .first := by
  intro mark hmark
  obtain ⟨byte, -, heq⟩ := List.mem_map.mp hmark
  rw [← heq]
  exact Place.noConfusion

theorem stuffing_ne_first (count : ℕ) : ∀ mark ∈ stuffing count, mark.2 ≠ .first := by
  intro mark hmark
  rw [(List.mem_replicate.mp hmark).2]
  exact Place.noConfusion

theorem map_stuffing (count : ℕ) : (stuffing count).map Prod.fst = List.replicate count 0xFF := by
  unfold stuffing
  rw [List.map_replicate]

/-- A payload in which no section begins ends the open one, if it has the rest of it. -/
theorem push_last {buffer : SectionBuffer} {sent : Section} {left rest : List UInt8}
    (hdata : buffer.data ≠ []) (hsplit : sent.bytes = buffer.data ++ left) (hwants : buffer.Wants sent)
    (hrest : rest.head?.all (· == 0xFF) = true) :
    buffer.push (left ++ rest) false = ({}, [sent.bytes]) := by
  unfold push append
  rw [if_neg Bool.false_ne_true, if_neg hdata]
  apply collect_last
  · rw [hsplit, List.append_assoc]
  · exact hwants
  · exact hrest

/-- A payload that has none of the end of the section. -/
theorem push_inside {buffer : SectionBuffer} {stream : List (UInt8 × Place)} {left rest : List UInt8}
    {gap : ℕ} {sections : List (Section × ℕ)} {out : List Section}
    (hstream : stream = rest.map (·, Place.inside) ++ (stuffing gap ++ laid sections))
    (hexpects : (left ++ rest = [] ∧ buffer = {} ∧ out = sections.map Prod.fst) ∨
      (left ++ rest ≠ [] ∧ buffer.data ≠ [] ∧ ∃ sent : Section, sent.bytes = buffer.data ++ (left ++ rest) ∧
        buffer.Wants sent ∧ out = sent :: sections.map Prod.fst)) :
    ∃ out', out.map (·.bytes) = (buffer.push left false).2 ++ out'.map (·.bytes) ∧
      Expects (buffer.push left false).1 stream out' := by
  rcases hexpects with ⟨hleft, hbuffer, hout⟩ | ⟨hleft, hdata, sent, hsplit, hwants, hout⟩
  · have hnil := List.append_eq_nil_iff.mp hleft
    rw [hbuffer, hnil.1, hout]
    refine ⟨sections.map Prod.fst, rfl, ?_⟩
    rw [hstream, hnil.2]
    exact expects_empty gap sections
  · cases rest with
    | nil =>
      rw [List.append_nil] at hsplit
      have hlast := @push_last buffer sent left [] hdata hsplit hwants rfl
      rw [List.append_nil] at hlast
      rw [hlast, hout, hstream]
      exact ⟨sections.map Prod.fst, rfl, expects_empty gap sections⟩
    | cons byte rest =>
      have hopen := @collect_open { buffer with data := buffer.data ++ left } sent (byte :: rest)
        (buffer.data.length + left.length) (by rw [hsplit, List.append_assoc]) (List.cons_ne_nil _ _) hwants
      have hpush : buffer.push left false = buffer.append left := by
        unfold push
        rw [if_neg Bool.false_ne_true, if_neg hdata]
      rw [hpush]
      unfold append
      refine ⟨out, by rw [hopen.2.2]; rfl, byte :: rest, gap, sections, hstream,
        .inr ⟨List.cons_ne_nil _ _, ?_, sent, ?_, hopen.2.1, hout⟩⟩
      · rw [hopen.1]
        exact List.append_ne_nil_of_left_ne_nil hdata left
      · rw [hopen.1, hsplit, List.append_assoc]

/-- A payload in which a section begins, after the rest of the open one. -/
theorem push_first {buffer : SectionBuffer} {left : List UInt8} {sections : List (Section × ℕ)}
    {more stream : List (UInt8 × Place)} {out : List Section} (hsplit : more ++ stream = laid sections)
    (hmore : more ≠ []) (hlength : left.length < 256)
    (hend : more.Pairwise fun before after ↦ before.2 = .stuffing → after.2 = .stuffing)
    (hexpects : (left = [] ∧ buffer = {} ∧ out = sections.map Prod.fst) ∨
      (left ≠ [] ∧ buffer.data ≠ [] ∧ ∃ sent : Section, sent.bytes = buffer.data ++ left ∧
        buffer.Wants sent ∧ out = sent :: sections.map Prod.fst)) :
    ∃ out', out.map (·.bytes) =
        (buffer.push (UInt8.ofNat left.length :: (left ++ more.map Prod.fst)) true).2 ++
          out'.map (·.bytes) ∧
      Expects (buffer.push (UInt8.ofNat left.length :: (left ++ more.map Prod.fst)) true).1 stream out' := by
  have hpointer : (UInt8.ofNat left.length).toNat = left.length := by
    rw [UInt8.toNat_ofNat', Nat.mod_eq_of_lt hlength]
  obtain ⟨out', hout', hnext⟩ := @collect_laid sections more stream (more.length + 1) hsplit hmore
    (Nat.lt_succ_self _) hend
  have hbegun : ({} : SectionBuffer).append (more.map Prod.fst) =
      collect (more.length + 1) { data := more.map Prod.fst } := by
    unfold append
    rw [List.length_map, List.nil_append]
    simp
  have hpush : buffer.push (UInt8.ofNat left.length :: (left ++ more.map Prod.fst)) true =
      ((collect (more.length + 1) { data := more.map Prod.fst }).1,
        (if UInt8.ofNat left.length ≠ 0 ∧ buffer.data ≠ [] then (buffer.append left).2 else []) ++
          (collect (more.length + 1) { data := more.map Prod.fst }).2) := by
    unfold push
    rw [if_pos rfl]
    simp only [hpointer, List.take_left, List.drop_left, hbegun]
    rw [if_neg (by rw [List.length_append]; omega)]
  refine ⟨out', ?_, by rw [hpush]; exact hnext⟩
  rw [hpush]
  rcases hexpects with ⟨hleft, hbuffer, hout⟩ | ⟨hleft, hdata, sent, hbytes, hwants, hout⟩
  · rw [hleft, if_neg (fun h ↦ h.1 rfl), hout, List.map_map, List.nil_append]
    exact hout'
  · have hne : UInt8.ofNat left.length ≠ 0 := by
      intro hzero
      have hpos := List.length_pos_iff.mpr hleft
      rw [hzero] at hpointer
      change 0 = left.length at hpointer
      omega
    have hended : buffer.append left = ({}, [sent.bytes]) :=
      collect_last _ (by rw [hbytes, List.append_nil]) hwants rfl
    rw [if_pos ⟨hne, hdata⟩, hended, hout, List.map_cons, List.map_map, List.append_assoc]
    exact congrArg (sent.bytes :: ·) hout'

/-- One payload of the stream. -/
theorem push_expects {buffer : SectionBuffer} {chunk stream : List (UInt8 × Place)} {out : List Section}
    (hpacks : Packs chunk) (hexpects : Expects buffer (chunk ++ stream) out) :
    ∃ out', out.map (·.bytes) = (buffer.push (payload chunk).1 (payload chunk).2).2 ++ out'.map (·.bytes) ∧
      Expects (buffer.push (payload chunk).1 (payload chunk).2).1 stream out' := by
  obtain ⟨left, gap, sections, hsplit, hopen⟩ := hexpects
  rcases List.append_eq_append_iff.mp hsplit with ⟨more, hinside, hstream⟩ | ⟨more, hmore, hrest⟩
  · obtain ⟨before, rest, hleft, hbefore, hafter⟩ := List.map_eq_append_iff.mp hinside
    rw [← hbefore, payload_of_none (inside_ne_first before), map_inside]
    rw [hleft] at hopen
    exact push_inside (by rw [hstream, ← hafter]) hopen
  · have hend : more.Pairwise fun before after ↦ before.2 = .stuffing → after.2 = .stuffing := by
      have hall := hpacks.to_end
      rw [hmore] at hall
      exact (List.pairwise_append.mp hall).2.1
    cases more with
    | nil =>
      rw [List.append_nil] at hmore
      rw [hmore, payload_of_none (inside_ne_first left), map_inside]
      exact @push_inside buffer stream left [] gap sections out hrest.symm
        (by rw [List.append_nil]; exact hopen)
    | cons mark more =>
      rcases Nat.eq_zero_or_pos gap with hzero | hpos
      · rw [hzero] at hrest
        have hhead := laid_head (hrest : laid sections = mark :: (more ++ stream))
        have hfind := findIdx?_first left mark more hhead.1
        have hlt := hpacks.pointer_lt left.length (by rw [hmore, hfind])
        have hpayload : payload chunk =
            (UInt8.ofNat left.length :: (left ++ (mark :: more).map Prod.fst), true) := by
          unfold payload
          rw [hmore, hfind, List.map_append, map_inside]
        rw [hpayload]
        exact push_first hrest.symm (List.cons_ne_nil _ _) hlt hend hopen
      · -- No section begins in a payload that ends in stuffing behind the open one.
        obtain ⟨count, after, hcount, hstuffed, hstream⟩ :=
          stuffing_of_head hpos (List.cons_ne_nil _ _) hrest.symm hend
        have hnone : ∀ other ∈ chunk, other.2 ≠ .first := by
          intro other hother
          rw [hmore, hstuffed, List.mem_append] at hother
          exact hother.elim (inside_ne_first left other) (stuffing_ne_first count other)
        have hbytes : chunk.map Prod.fst = left ++ List.replicate count 0xFF := by
          rw [hmore, hstuffed, List.map_append, map_inside, map_stuffing]
        rw [payload_of_none hnone, hbytes, hstream]
        rcases hopen with ⟨-, hbuffer, hout⟩ | ⟨-, hdata, sent, hsent, hwants, hout⟩
        · rw [hbuffer, hout]
          exact ⟨sections.map Prod.fst, rfl, expects_empty after sections⟩
        · obtain ⟨count, rfl⟩ := Nat.exists_eq_succ_of_ne_zero (Nat.ne_of_gt hcount)
          rw [push_last hdata hsent hwants (by rfl), hout]
          exact ⟨sections.map Prod.fst, rfl, expects_empty after sections⟩

theorem run_expects (chunks : List (List (UInt8 × Place))) {buffer : SectionBuffer} {out : List Section}
    (hpacks : ∀ chunk ∈ chunks, Packs chunk) (hexpects : Expects buffer chunks.flatten out) :
    buffer.run (chunks.map payload) = out.map (·.bytes) := by
  induction chunks generalizing buffer out with
  | nil =>
    obtain ⟨left, gap, sections, hsplit, hopen⟩ := hexpects
    have hnil := List.append_eq_nil_iff.mp hsplit.symm
    have hsections : sections = [] := by
      cases sections with
      | nil => rfl
      | cons sent rest =>
        obtain ⟨byte, bytes, -, -, hmarked⟩ := marked_eq sent.1
        have hlaid := (List.append_eq_nil_iff.mp hnil.2).2
        rw [laid, hmarked] at hlaid
        exact absurd hlaid (List.cons_ne_nil _ _)
    rcases hopen with ⟨-, -, hout⟩ | ⟨hleft, -⟩
    · rw [hout, hsections]
      rfl
    · exact absurd (List.map_eq_nil_iff.mp hnil.1) hleft
  | cons chunk chunks ih =>
    obtain ⟨out', hout, hnext⟩ := push_expects (hpacks chunk List.mem_cons_self) hexpects
    rw [List.map_cons, run, ih (fun other hother ↦ hpacks other (List.mem_cons_of_mem _ hother)) hnext, hout]

end SectionBuffer

/-- The buffer gives the sections of a stream, once each and in order, however the stream is cut into
payloads. -/
theorem sections_reassembled (lead : ℕ) (sections : List (Section × ℕ))
    (chunks : List (List (UInt8 × Place))) (hcut : chunks.flatten = stuffing lead ++ laid sections)
    (hpacks : ∀ chunk ∈ chunks, Packs chunk) :
    ({} : SectionBuffer).run (chunks.map payload) = sections.map (·.1.bytes) := by
  rw [SectionBuffer.run_expects chunks hpacks (hcut ▸ expects_empty lead sections), List.map_map]
  rfl

def shortSection : Section where
  bytes := [0x42, 0x00, 0x05, 0x12] ++ toBe32 (crc32Mpeg [0x42, 0x00, 0x05, 0x12]).toNat
  head_ne := by decide
  length_eq := rfl
  length_le := by decide
  check := crc32Mpeg_append_check _

theorem sections_reassembled_twice :
    ({} : SectionBuffer).run ([(laid [(shortSection, 0), (shortSection, 2)]).take 5,
      (laid [(shortSection, 0), (shortSection, 2)]).drop 5].map payload) =
        [shortSection.bytes, shortSection.bytes] := by
  apply sections_reassembled 0 [(shortSection, 0), (shortSection, 2)]
  · rw [List.flatten_cons, List.flatten_cons, List.flatten_nil, List.append_nil, List.take_append_drop]
    rfl
  · intro chunk hchunk
    rcases List.mem_cons.mp hchunk with heq | hmem
    · rw [heq]
      refine ⟨fun pointer hpointer ↦ ?_, by decide⟩
      have hzero : some 0 = some pointer := hpointer
      rw [← Option.some.inj hzero]
      decide
    · rw [List.mem_singleton.mp hmem]
      refine ⟨fun pointer hpointer ↦ ?_, by decide⟩
      have hthree : some 3 = some pointer := hpointer
      rw [← Option.some.inj hthree]
      decide

end Sdrmm.Ts
