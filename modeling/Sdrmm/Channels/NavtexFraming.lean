import Sdrmm.Channels.NavtexSigns

/-!
# The messages between start and end groups

A message that is given as complete has the text between the last start group and the end group, as long as
no start group is directly followed by the two characters that make it a start group again.  The decoder then
takes three characters off a body that has one.  `Keeps` is the invariant of a page over what is heard.
-/

namespace Sdrmm.Navtex

open Lib.Checked

/-! ## Text with line breaks -/

/-- What is heard, without the repairs. -/
def heard (signs : List Sign) : List Sign := signs.filter (· ≠ .repaired)

def spoken (text : List Char) : List Sign := text.map .char

/-- The text of some signs, with one line break for a row of them; `broken` says that one came before. -/
def folded : Bool → List Sign → List Char
  | _, [] => []
  | _, .char c :: rest => c :: folded false rest
  | broken, .lineBreak :: rest => if broken then folded true rest else '\n' :: folded true rest
  | broken, _ :: rest => folded broken rest

/-- Whether some signs end with a line break. -/
def endsBroken : Bool → List Sign → Bool
  | broken, [] => broken
  | _, .char _ :: rest => endsBroken false rest
  | _, .lineBreak :: rest => endsBroken true rest
  | broken, _ :: rest => endsBroken broken rest

theorem folded_append (broken : Bool) (first second : List Sign) :
    folded broken (first ++ second) = folded broken first ++ folded (endsBroken broken first) second := by
  induction first generalizing broken with
  | nil => rfl
  | cons sign rest ih =>
    cases sign with
    | char c => exact congrArg (c :: ·) (ih false)
    | lineBreak =>
      cases broken with
      | false => exact congrArg ('\n' :: ·) (ih true)
      | true => exact ih true
    | repaired => exact ih broken
    | flush => exact ih broken

theorem folded_lineBreak (broken : Bool) : folded broken [.lineBreak] = if broken then [] else ['\n'] := by
  cases broken <;> rfl

theorem endsBroken_append (broken : Bool) (first second : List Sign) :
    endsBroken broken (first ++ second) = endsBroken (endsBroken broken first) second := by
  induction first generalizing broken with
  | nil => rfl
  | cons sign rest ih =>
    cases sign with
    | char c => exact ih false
    | lineBreak => exact ih true
    | repaired => exact ih broken
    | flush => exact ih broken

theorem folded_spoken (broken : Bool) (text : List Char) : folded broken (spoken text) = text := by
  induction text generalizing broken with
  | nil => rfl
  | cons c rest ih => exact congrArg (c :: ·) (ih false)

theorem heard_append (first second : List Sign) : heard (first ++ second) = heard first ++ heard second :=
  List.filter_append first second

/-! ## The last four characters -/

/-- The last four characters, of which `base` are the first ones. -/
def lastFour (base recent : List Char) : List Char := (base ++ recent).drop recent.length

theorem lastFour_nil (base : List Char) : lastFour base [] = base := List.append_nil base

theorem lastFour_snoc {base : List Char} (hbase : base.length = 4) (recent : List Char) (c : Char) :
    (lastFour base recent).drop 1 ++ [c] = lastFour base (recent ++ [c]) := by
  have hsplit : (base ++ recent ++ [c]).drop (recent.length + 1) =
      (base ++ recent).drop (recent.length + 1) ++ [c] :=
    List.drop_append_of_le_length (by rw [List.length_append]; omega)
  unfold lastFour
  rw [List.drop_drop, List.length_append, List.length_singleton, ← List.append_assoc, hsplit]

theorem lastFour_long {base : List Char} (hbase : base.length = 4) (recent group : List Char)
    (hgroup : group.length = 4) : lastFour base (recent ++ group) = group := by
  unfold lastFour
  have hlength : (recent ++ group).length = (base ++ recent).length := by
    rw [List.length_append, List.length_append, hbase, hgroup, Nat.add_comm]
  rw [← List.append_assoc, hlength, List.drop_left]

/-- A text has fewer than three characters, or three last ones. -/
theorem short_or_long (recent : List Char) :
    recent = [] ∨ (∃ x, recent = [x]) ∨ (∃ x y, recent = [x, y]) ∨
      ∃ early x y z, recent = early ++ [x, y, z] := by
  rcases List.eq_nil_or_concat recent with hnil | ⟨front, z, rfl⟩
  · exact .inl hnil
  rcases List.eq_nil_or_concat front with rfl | ⟨front, y, rfl⟩
  · exact .inr (.inl ⟨z, rfl⟩)
  rcases List.eq_nil_or_concat front with rfl | ⟨front, x, rfl⟩
  · exact .inr (.inr (.inl ⟨y, z, rfl⟩))
  · exact .inr (.inr (.inr ⟨front, x, y, z, by simp⟩))

/-! ## Groups -/

def nulls : List Char := List.replicate 4 '\x00'

/-- A start group and the two characters that complete another one. -/
def collision : List Char := ['Z', 'C', 'Z', 'C', 'Z', 'C']

/-- `rest` is what is heard after the last start group of a text. -/
structure SinceStart (text before rest : List Sign) : Prop where
  text_eq : text = before ++ spoken startGroup ++ rest
  latest : ∀ before' rest', text = before' ++ spoken startGroup ++ rest' → rest.length ≤ rest'.length

/-- The last characters of a text since the last break, and what stood in the tail before them: nothing, or
the start group that the text began with. -/
inductive Tailed : List Sign → List Char → List Char → Prop
  | start (recent : List Char) : Tailed (spoken recent) startGroup recent
  | reset (recent : List Char) : Tailed (spoken recent) nulls recent
  | broken (early : List Sign) (sign : Sign) (hsign : ∀ c, sign ≠ .char c) (recent : List Char) :
      Tailed (early ++ [sign] ++ spoken recent) nulls recent

theorem Tailed.base_length {rest : List Sign} {base recent : List Char} (htailed : Tailed rest base recent) :
    base.length = 4 := by
  cases htailed with
  | start => rfl
  | reset => rfl
  | broken => rfl

theorem spoken_append (first second : List Char) : spoken (first ++ second) = spoken first ++ spoken second :=
  List.map_append

theorem Tailed.snoc {rest : List Sign} {base recent : List Char} (htailed : Tailed rest base recent) (c : Char) :
    Tailed (rest ++ [.char c]) base (recent ++ [c]) := by
  have hspoken : spoken recent ++ [.char c] = spoken (recent ++ [c]) := (spoken_append recent [c]).symm
  cases htailed with
  | start =>
    rw [hspoken]
    exact .start _
  | reset =>
    rw [hspoken]
    exact .reset _
  | broken early sign hsign =>
    rw [List.append_assoc, hspoken]
    exact .broken early sign hsign _

theorem Tailed.split {rest : List Sign} {base recent : List Char} (htailed : Tailed rest base recent)
    {early late : List Char} (hrecent : recent = early ++ late) :
    ∃ before, rest = before ++ spoken late := by
  subst hrecent
  cases htailed with
  | start => exact ⟨spoken early, spoken_append early late⟩
  | reset => exact ⟨spoken early, spoken_append early late⟩
  | broken front sign => exact ⟨front ++ [sign] ++ spoken early, by rw [spoken_append, List.append_assoc _ _ (spoken late)]⟩

theorem SinceStart.snoc {text before rest : List Sign} {sign : Sign} (hsince : SinceStart text before rest)
    (hend : ¬spoken startGroup <:+ text ++ [sign]) : SinceStart (text ++ [sign]) before (rest ++ [sign]) where
  text_eq := by rw [hsince.text_eq, List.append_assoc]
  latest before' rest' htext := by
    rcases List.eq_nil_or_concat rest' with hnil | ⟨rest', last, rfl⟩
    · rw [hnil, List.append_nil] at htext
      exact absurd ⟨before', htext.symm⟩ hend
    · rw [List.concat_eq_append, ← List.append_assoc] at htext
      have hle := hsince.latest before' rest' (List.append_inj' htext rfl).1
      rw [List.concat_eq_append, List.length_append, List.length_append]
      exact Nat.add_le_add_right hle 1

theorem sinceStart_end {text before : List Sign} (htext : text = before ++ spoken startGroup) :
    SinceStart text before [] :=
  ⟨by rw [htext, List.append_nil], fun _ _ _ ↦ Nat.zero_le _⟩

/-- A sign that is no character ends no group. -/
theorem not_group_of_sign {text : List Sign} {sign : Sign} (hsign : ∀ c, sign ≠ .char c) :
    ¬spoken startGroup <:+ text ++ [sign] := by
  rintro ⟨before, htext⟩
  have hlast : before ++ spoken ['Z', 'C', 'Z'] ++ [Sign.char 'C'] = text ++ [sign] := by
    rw [← htext, List.append_assoc]
    rfl
  exact hsign 'C' (List.singleton_inj.mp (List.append_inj' hlast rfl).2).symm

/-- The tail shows every group, unless two start groups overlap. -/
theorem not_group_of_tail {text before rest : List Sign} {base recent : List Char} {c : Char}
    (hsince : SinceStart text before rest) (htailed : Tailed rest base recent)
    (hclear : ¬spoken collision <:+ text ++ [.char c])
    (htail : lastFour base (recent ++ [c]) ≠ startGroup) : ¬spoken startGroup <:+ text ++ [.char c] := by
  rintro ⟨front, hfront⟩
  have hreverse := congrArg List.reverse hfront
  rw [hsince.text_eq] at hreverse hclear
  rcases short_or_long recent with rfl | ⟨x, rfl⟩ | ⟨x, y, rfl⟩ | ⟨early, x, y, z, rfl⟩
  · cases htailed with
    | start => simp [spoken, startGroup] at hreverse
    | reset => simp [spoken, startGroup] at hreverse
    | broken early sign hsign => simp [spoken, startGroup, (hsign _).symm] at hreverse
  · have hcollides : rest = spoken [x] → False := by
      rintro rfl
      simp only [spoken, startGroup, List.map_cons, List.map_nil, List.reverse_append, List.reverse_cons,
        List.reverse_nil, List.nil_append, List.cons_append, List.cons.injEq, Sign.char.injEq] at hreverse
      apply hclear
      rw [← hreverse.1, ← hreverse.2.1]
      exact ⟨before, by simp [spoken, collision, startGroup]⟩
    cases htailed with
    | start => exact hcollides rfl
    | reset => exact hcollides rfl
    | broken early sign hsign => simp [spoken, startGroup, (hsign _).symm] at hreverse
  · cases htailed with
    | start => simp [spoken, startGroup] at hreverse
    | reset => simp [spoken, startGroup] at hreverse
    | broken early sign hsign => simp [spoken, startGroup, (hsign _).symm] at hreverse
  · obtain ⟨front', hfront'⟩ := htailed.split rfl
    apply htail
    rw [List.append_assoc, lastFour_long htailed.base_length _ _ rfl]
    rw [hfront'] at hreverse
    simp only [spoken, startGroup, List.map_cons, List.map_nil, List.reverse_append, List.reverse_cons,
      List.reverse_nil, List.nil_append, List.cons_append, List.cons.injEq, Sign.char.injEq] at hreverse
    rw [← hreverse.1, ← hreverse.2.1, ← hreverse.2.2.1, ← hreverse.2.2.2.1]
    rfl

/-- The characters of a group that the tail shows are the last ones of the text, unless two start groups
overlap. -/
theorem Tailed.group {text before rest : List Sign} {base recent group : List Char} {c : Char}
    (hsince : SinceStart text before rest) (htailed : Tailed rest base recent)
    (hclear : ¬spoken collision <:+ text ++ [.char c]) (hgroup : group = startGroup ∨ group = endGroup)
    (htail : lastFour base (recent ++ [c]) = group) :
    ∃ front x y z, group = [x, y, z, c] ∧ rest = front ++ spoken [x, y, z] := by
  rcases short_or_long recent with rfl | ⟨x, rfl⟩ | ⟨x, y, rfl⟩ | ⟨early, x, y, z, rfl⟩
  · rw [← htail] at hgroup
    cases htailed <;> simp [lastFour, startGroup, endGroup, nulls] at hgroup
  · rw [← htail] at hgroup
    cases htailed with
    | start =>
      simp only [lastFour, startGroup, endGroup, List.cons_append, List.nil_append, List.length_cons,
        List.length_nil, List.drop_succ_cons, List.drop_zero, List.cons.injEq, and_true] at hgroup
      rcases hgroup with ⟨-, -, hx, hc⟩ | ⟨hx, -⟩
      · rw [hsince.text_eq, hx, hc] at hclear
        exact absurd ⟨before, by simp [spoken, collision, startGroup]⟩ hclear
      · exact absurd hx (by decide)
    | reset => simp [lastFour, startGroup, endGroup, nulls] at hgroup
    | broken => simp [lastFour, startGroup, endGroup, nulls] at hgroup
  · rw [← htail] at hgroup
    cases htailed <;> simp [lastFour, startGroup, endGroup, nulls] at hgroup
  · obtain ⟨front, hfront⟩ := htailed.split rfl
    rw [List.append_assoc, lastFour_long htailed.base_length _ _ rfl] at htail
    exact ⟨front, x, y, z, htail.symm, hfront⟩

/-! ## The invariant of a page -/

/-- A page on which no message is in progress. -/
structure Waits (page : Page) (text : List Sign) : Prop where
  collecting : page.collecting = false
  tail : ∃ before recent, text = before ++ spoken recent ∧ page.tail = lastFour nulls recent

/-- A page on which a message is in progress: it has what is heard since the last start group. -/
structure Collects (page : Page) (text before rest : List Sign) (base recent : List Char) : Prop where
  collecting : page.collecting = true
  since : SinceStart text before rest
  unbroken : .flush ∉ rest
  body : page.body = folded false rest
  newline : page.newline = endsBroken false rest
  tailed : Tailed rest base recent
  tail : page.tail = lastFour base recent

def Keeps (page : Page) (text : List Sign) : Prop :=
  Waits page text ∨ ∃ before rest base recent, Collects page text before rest base recent

/-- The message has the text between the last start group and the end group that a text ends with. -/
def Framed (message : NavtexMessage) (text : List Sign) : Prop :=
  ∃ before between errors, SinceStart text before (between ++ spoken endGroup) ∧ .flush ∉ between ∧
    message = messageOf (folded false between) errors true

theorem waits_emptied (page : Page) (complete : Bool) (text : List Sign) :
    Waits (page.emitMessage complete).1 text := by
  have hpage : (page.emitMessage complete).1 = { page with
      body := [], errorsCorrected := 0, collecting := false, tail := List.replicate 4 '\x00' } := by
    unfold Page.emitMessage
    split_ifs <;> rfl
  rw [hpage]
  exact ⟨rfl, text, [], (List.append_nil text).symm, (lastFour_nil nulls).symm⟩

theorem complete_emitted {page : Page} {complete : Bool} {message : NavtexMessage}
    (hmessage : message ∈ (page.emitMessage complete).2) :
    message = messageOf page.body page.errorsCorrected complete := by
  unfold Page.emitMessage at hmessage
  split_ifs at hmessage
  · exact absurd hmessage List.not_mem_nil
  · exact List.mem_singleton.mp hmessage

/-- A message that is given up is not complete. -/
theorem incomplete_emitted {page : Page} {message : NavtexMessage}
    (hmessage : message ∈ (page.emitMessage false).2) : message.complete = false := by
  rw [complete_emitted hmessage]
  rfl

/-- The page with a message that begins. -/
theorem collects_start {page : Page} {text before : List Sign} {base : List Char}
    (htext : text = before ++ spoken startGroup) (hbase : base = startGroup ∨ base = nulls)
    (htail : page.tail = base) (hnewline : page.newline = false) :
    Collects { page with body := [], errorsCorrected := 0, collecting := true } text before [] base [] where
  collecting := rfl
  since := sinceStart_end htext
  unbroken := List.not_mem_nil
  body := rfl
  newline := hnewline
  tailed := hbase.elim (fun h ↦ h ▸ .start []) fun h ↦ h ▸ .reset []
  tail := htail.trans (lastFour_nil base).symm

/-- What a page does with a sign that is heard: it does not panic, keeps its invariant, and gives only
messages with the right text. -/
def Handles (text : List Sign) (result : Except Halt (Page × List NavtexMessage)) : Prop :=
  ∃ next out, result = .ok (next, out) ∧ Keeps next text ∧
    ∀ message ∈ out, message.complete = true → Framed message text

theorem handles_silent {page : Page} {text : List Sign} (hkeeps : Keeps page text) :
    Handles text (.ok (page, [])) :=
  ⟨page, [], rfl, hkeeps, fun _ hmessage ↦ absurd hmessage List.not_mem_nil⟩

/-- A message that is given up. -/
theorem handles_incomplete (page : Page) (text : List Sign) : Handles text (.ok (page.emitMessage false)) := by
  refine ⟨_, _, rfl, .inl (waits_emptied page false text), ?_⟩
  intro message hmessage hcomplete
  rw [incomplete_emitted hmessage] at hcomplete
  cases hcomplete

/-- A message that is given whole. -/
theorem handles_complete {page : Page} {text : List Sign}
    (hframed : Framed (messageOf page.body page.errorsCorrected true) text) :
    Handles text (.ok (page.emitMessage true)) := by
  refine ⟨_, _, rfl, .inl (waits_emptied page true text), ?_⟩
  intro message hmessage _
  rw [@complete_emitted page true message hmessage]
  exact hframed

namespace Page

/-- A character while no message is in progress; it is the last one of `recent`. -/
theorem pushText_waits {page : Page} {text before : List Sign} {recent : List Char}
    (hcollecting : page.collecting = false) (hnewline : page.newline = false)
    (htext : text = before ++ spoken recent) (htail : page.tail = lastFour nulls recent) (c : Char) :
    Handles text (page.pushText c) := by
  unfold pushText
  by_cases hstart : page.tail = startGroup
  · rw [if_pos hstart, if_neg (by rw [hcollecting]; exact Bool.false_ne_true)]
    apply handles_silent
    obtain ⟨early, hearly⟩ : ∃ early, recent = early ++ startGroup := by
      rw [hstart] at htail
      rcases List.eq_nil_or_concat recent with rfl | ⟨recent, last, rfl⟩
      · simp [lastFour, startGroup, nulls] at htail
      rw [List.concat_eq_append] at htail ⊢
      rcases short_or_long recent with rfl | ⟨x, rfl⟩ | ⟨x, y, rfl⟩ | ⟨early, x, y, z, rfl⟩
      · simp [lastFour, startGroup, nulls] at htail
      · simp [lastFour, startGroup, nulls] at htail
      · simp [lastFour, startGroup, nulls] at htail
      · rw [List.append_assoc, lastFour_long rfl _ _ rfl] at htail
        exact ⟨early, by rw [htail, List.append_assoc]⟩
    have hbegins : text = before ++ spoken early ++ spoken startGroup := by
      rw [htext, hearly, spoken_append, List.append_assoc]
    exact .inr ⟨_, _, _, _, collects_start hbegins (.inl rfl) hstart hnewline⟩
  · rw [if_neg hstart, if_pos (by rw [hcollecting]; rfl)]
    apply handles_silent
    exact .inl ⟨hcollecting, before, recent, htext, htail⟩

/-- A character of a message in progress, which is already in the tail. -/
theorem pushText_collects {page : Page} {text before rest : List Sign} {base recent : List Char} {c : Char}
    (hcollects : Collects { page with tail := lastFour base recent, newline := endsBroken false rest }
      text before rest base recent)
    (hnewline : page.newline = false) (htail : page.tail = lastFour base (recent ++ [c]))
    (hclear : ¬spoken collision <:+ text ++ [.char c]) :
    Handles (text ++ [.char c]) (page.pushText c) := by
  have hcollecting : page.collecting = true := hcollects.collecting
  have hbody : page.body = folded false rest := hcollects.body
  have hsplit (front : List Sign) (x y z : Char) (hrest : rest = front ++ spoken [x, y, z]) :
      sub page.body.length 3 = .ok (page.body.length - 3) ∧
        page.body.take (page.body.length - 3) = folded false front := by
    have hlast : page.body = folded false front ++ [x, y, z] := by
      rw [hbody, hrest, folded_append, folded_spoken]
    have hlength : page.body.length = (folded false front).length + 3 := by
      rw [hlast, List.length_append]
      rfl
    refine ⟨sub_of_le (by omega), ?_⟩
    rw [hlength, Nat.add_sub_cancel, hlast, List.take_left]
  unfold pushText
  by_cases hstart : page.tail = startGroup
  · -- The message is given up for another one, without the three characters of its start group.
    obtain ⟨front, x, y, z, hgroup, hrest⟩ :=
      hcollects.tailed.group hcollects.since hclear (.inl rfl) (htail.symm.trans hstart)
    have hbegins : text ++ [.char c] = before ++ spoken startGroup ++ front ++ spoken startGroup := by
      have hspoken : spoken startGroup = spoken [x, y, z] ++ [.char c] := congrArg spoken hgroup
      rw [hcollects.since.text_eq, hrest]
      simp only [hspoken, List.append_assoc]
    rw [if_pos hstart, if_pos hcollecting]
    simp only [(hsplit front x y z hrest).1, ok_bind]
    refine ⟨_, _, rfl, .inr ⟨_, _, nulls, _, collects_start hbegins (.inr rfl) ?_ ?_⟩, ?_⟩
    · unfold emitMessage
      split_ifs <;> rfl
    · unfold emitMessage
      split_ifs <;> exact hnewline
    · intro message hmessage hcomplete
      rw [incomplete_emitted hmessage] at hcomplete
      cases hcomplete
  rw [if_neg hstart, if_neg (by rw [hcollecting]; exact Bool.noConfusion)]
  have hsince := hcollects.since.snoc
    (not_group_of_tail hcollects.since hcollects.tailed hclear (htail ▸ hstart))
  by_cases hend : page.tail = endGroup
  · obtain ⟨front, x, y, z, hgroup, hrest⟩ :=
      hcollects.tailed.group hcollects.since hclear (.inr rfl) (htail.symm.trans hend)
    rw [if_pos hend]
    simp only [(hsplit front x y z hrest).1, ok_bind, (hsplit front x y z hrest).2]
    apply handles_complete
    refine ⟨before, front, page.errorsCorrected, ?_, ?_, rfl⟩
    · have hspoken : spoken endGroup = spoken [x, y, z] ++ [.char c] := congrArg spoken hgroup
      rw [hspoken, ← List.append_assoc, ← hrest]
      exact hsince
    · intro hflush
      apply hcollects.unbroken
      rw [hrest]
      exact List.mem_append_left _ hflush
  · have hnext : Collects { page with body := page.body ++ [c] } (text ++ [.char c]) before
        (rest ++ [.char c]) base (recent ++ [c]) := {
      collecting := hcollecting
      since := hsince
      unbroken := by
        intro hflush
        cases List.mem_append.mp hflush with
        | inl hmem => exact hcollects.unbroken hmem
        | inr hmem => cases List.mem_singleton.mp hmem
      body := by
        rw [folded_append, ← hbody]
        rfl
      newline := by
        rw [endsBroken_append]
        exact hnewline
      tailed := hcollects.tailed.snoc c
      tail := htail }
    rw [if_neg hend]
    simp only
    split_ifs
    · exact handles_incomplete _ _
    · exact handles_silent (.inr ⟨_, _, _, _, hnext⟩)

theorem take_char {page : Page} {text : List Sign} (hkeeps : Keeps page text) (c : Char)
    (hclear : page.collecting = true → ¬spoken collision <:+ text ++ [.char c]) :
    Handles (text ++ [.char c]) (page.take (.char c)) := by
  rw [take]
  rcases hkeeps with hwaits | ⟨before, rest, base, recent, hcollects⟩
  · obtain ⟨before, recent, htext, htail⟩ := hwaits.tail
    refine @pushText_waits { page with newline := false, tail := page.tail.drop 1 ++ [c] } _ before
      (recent ++ [c]) hwaits.collecting rfl ?_ ?_ c
    · rw [htext, spoken_append, List.append_assoc]
      rfl
    · rw [← lastFour_snoc rfl, ← htail]
  · refine @pushText_collects { page with newline := false, tail := page.tail.drop 1 ++ [c] } _ before rest
      base recent c ?_ rfl ?_ (hclear hcollects.collecting)
    · exact ⟨hcollects.collecting, hcollects.since, hcollects.unbroken, hcollects.body, rfl,
        hcollects.tailed, rfl⟩
    · rw [← lastFour_snoc hcollects.tailed.base_length, ← hcollects.tail]

theorem take_lineBreak {page : Page} {text : List Sign} (hkeeps : Keeps page text) :
    Handles (text ++ [.lineBreak]) (page.take .lineBreak) := by
  unfold take write
  rw [if_neg (by decide), if_pos (by decide)]
  apply handles_silent
  rcases hkeeps with hwaits | ⟨before, rest, base, recent, hcollects⟩
  · exact .inl ⟨hwaits.collecting, text ++ [.lineBreak], [], (List.append_nil _).symm, (lastFour_nil _).symm⟩
  · refine .inr ⟨before, rest ++ [.lineBreak], nulls, [], ?_⟩
    exact {
      collecting := hcollects.collecting
      since := hcollects.since.snoc (not_group_of_sign fun c ↦ Sign.noConfusion)
      unbroken := by
        intro hflush
        cases List.mem_append.mp hflush with
        | inl hmem => exact hcollects.unbroken hmem
        | inr hmem => cases List.mem_singleton.mp hmem
      body := by
        rw [folded_append, ← hcollects.body, ← hcollects.newline]
        cases hbroken : page.newline with
        | false => simp [folded_lineBreak, hcollects.collecting]
        | true => simp [folded_lineBreak]
      newline := by
        rw [endsBroken_append]
        rfl
      tailed := by
        have hbroken := Tailed.broken rest .lineBreak (fun c ↦ Sign.noConfusion) []
        exact (List.append_nil (rest ++ [Sign.lineBreak])) ▸ hbroken
      tail := (lastFour_nil nulls).symm }

theorem keeps_repaired {page : Page} {text : List Sign} (hkeeps : Keeps page text) (errors : ℕ) :
    Keeps { page with errorsCorrected := errors } text := by
  rcases hkeeps with hwaits | ⟨before, rest, base, recent, hcollects⟩
  · exact .inl ⟨hwaits.collecting, hwaits.tail⟩
  · exact .inr ⟨before, rest, base, recent, hcollects.collecting, hcollects.since, hcollects.unbroken,
      hcollects.body, hcollects.newline, hcollects.tailed, hcollects.tail⟩

/-- One sign. -/
theorem take_handles {page : Page} {text : List Sign} (hkeeps : Keeps page text) (sign : Sign)
    (hclear : ∀ c, sign = .char c → page.collecting = true → ¬spoken collision <:+ text ++ [.char c]) :
    Handles (text ++ heard [sign]) (page.take sign) := by
  cases sign with
  | repaired =>
    rw [show heard [.repaired] = [] from rfl, List.append_nil]
    exact handles_silent (keeps_repaired hkeeps _)
  | char c => exact take_char hkeeps c (hclear c rfl)
  | lineBreak => exact take_lineBreak hkeeps
  | flush => exact handles_incomplete page _

/-- Repairs and silence. -/
theorem takeAll_quiet {page : Page} {text : List Sign} (hkeeps : Keeps page text) {quiet : List Sign}
    (hquiet : ∀ sign ∈ quiet, sign = .repaired ∨ sign = .flush) :
    ∃ next out, page.takeAll quiet = .ok (next, out) ∧ Keeps next (text ++ heard quiet) ∧
      (next.collecting = true → page.collecting = true) ∧ ∀ message ∈ out, message.complete = false := by
  induction quiet generalizing page text with
  | nil =>
    refine ⟨page, [], rfl, ?_, id, fun _ hmessage ↦ absurd hmessage List.not_mem_nil⟩
    rw [show heard [] = [] from rfl, List.append_nil]
    exact hkeeps
  | cons sign rest ih =>
    have hrest : ∀ sign ∈ rest, sign = .repaired ∨ sign = .flush :=
      fun other hother ↦ hquiet other (List.mem_cons_of_mem _ hother)
    have hfirst : ∃ first early, page.take sign = .ok (first, early) ∧ Keeps first (text ++ heard [sign]) ∧
        (first.collecting = true → page.collecting = true) ∧ ∀ message ∈ early, message.complete = false := by
      rcases hquiet sign List.mem_cons_self with rfl | rfl
      · rw [show heard [.repaired] = [] from rfl, List.append_nil]
        exact ⟨_, _, rfl, keeps_repaired hkeeps _, id, fun _ hmessage ↦ absurd hmessage List.not_mem_nil⟩
      · have hwaits := waits_emptied page false (text ++ heard [.flush])
        refine ⟨(page.emitMessage false).1, (page.emitMessage false).2, rfl, .inl hwaits, ?_,
          fun _ ↦ incomplete_emitted⟩
        rw [hwaits.collecting]
        exact Bool.noConfusion
    obtain ⟨first, early, htake, hfirst, hcollecting, hearly⟩ := hfirst
    obtain ⟨next, out, hall, hnext, hcollecting', hout⟩ := ih hfirst hrest
    refine ⟨next, early ++ out, ?_, ?_, fun h ↦ hcollecting (hcollecting' h), ?_⟩
    · rw [takeAll_cons, htake, ok_bind, hall]
      rfl
    · rw [List.append_assoc, ← heard_append] at hnext
      exact hnext
    · intro message hmessage
      exact (List.mem_append.mp hmessage).elim (hearly message) (hout message)

/-- The signs of one soft bit: at most one of them is a character. -/
theorem takeAll_handles {page : Page} {text : List Sign} (hkeeps : Keeps page text)
    {quiet last : List Sign} (hquiet : ∀ sign ∈ quiet, sign = .repaired ∨ sign = .flush)
    (hlast : last.length ≤ 1)
    (hclear : page.collecting = true → heard last ≠ [] →
      ¬spoken collision <:+ text ++ heard (quiet ++ last)) :
    Handles (text ++ heard (quiet ++ last)) (page.takeAll (quiet ++ last)) := by
  obtain ⟨next, out, hall, hnext, hcollecting, hout⟩ := takeAll_quiet hkeeps hquiet
  have hincomplete : ∀ message ∈ out, message.complete = true → Framed message (text ++ heard (quiet ++ last)) := by
    intro message hmessage hcomplete
    rw [hout message hmessage] at hcomplete
    cases hcomplete
  rw [heard_append, ← List.append_assoc] at hclear hincomplete ⊢
  match last, hlast with
  | [], _ =>
    rw [List.append_nil, hall]
    refine ⟨next, out, rfl, ?_, hincomplete⟩
    rw [show heard [] = [] from rfl, List.append_nil]
    exact hnext
  | [sign], _ =>
    have hsign : ∀ c, sign = .char c → next.collecting = true →
        ¬spoken collision <:+ text ++ heard quiet ++ [.char c] := by
      rintro c rfl hnext'
      exact hclear (hcollecting hnext') (List.cons_ne_nil _ _)
    obtain ⟨final, more, htake, hfinal, hmore⟩ := take_handles hnext sign hsign
    refine ⟨final, out ++ more, ?_, hfinal, ?_⟩
    · rw [takeAll_append, hall, ok_bind, takeAll_singleton, htake]
      rfl
    · intro message hmessage
      exact (List.mem_append.mp hmessage).elim (hincomplete message) (hmore message)

end Page

/-! ## The decoder -/

namespace Reception

theorem signOf_length (ch : Char) : (signOf ch).length ≤ 1 := by
  unfold signOf
  split_ifs <;> simp

theorem emitChar_length (reception : Reception) (code : UInt8) :
    (reception.emitChar code).2.length ≤ 1 := by
  unfold emitChar
  by_cases hcontrol : code = alpha ∨ code = beta ∨ code = rep ∨ code = char32
  · rw [if_pos hcontrol]
    exact Nat.zero_le 1
  · rw [if_neg hcontrol]
    cases ita2For code with
    | none => exact Nat.zero_le 1
    | some ita2 =>
      simp only
      split_ifs <;> first | exact Nat.zero_le 1 | exact signOf_length _

/-- A part of the signs of a soft bit. -/
def Brief (signs : List Sign) : Prop :=
  ∃ quiet last, signs = quiet ++ last ∧ (∀ sign ∈ quiet, sign = .repaired ∨ sign = .flush) ∧ last.length ≤ 1

theorem brief_quiet {signs : List Sign} (hquiet : ∀ sign ∈ signs, sign = .repaired ∨ sign = .flush) :
    Brief signs := ⟨signs, [], (List.append_nil signs).symm, hquiet, Nat.zero_le 1⟩

theorem Brief.append {quiet signs : List Sign} (hquiet : ∀ sign ∈ quiet, sign = .repaired ∨ sign = .flush)
    (hbrief : Brief signs) : Brief (quiet ++ signs) := by
  obtain ⟨more, last, rfl, hmore, hlast⟩ := hbrief
  refine ⟨quiet ++ more, last, (List.append_assoc _ _ _).symm, ?_, hlast⟩
  exact fun sign hsign ↦ (List.mem_append.mp hsign).elim (hquiet sign) (hmore sign)

theorem decodeSlot_brief (reception : Reception) : Brief reception.decodeSlot.2 := by
  unfold decodeSlot
  cases Decoder.decided reception.bits with
  | none =>
    simp only
    split_ifs
    · exact brief_quiet fun sign hsign ↦ .inr (List.mem_singleton.mp hsign)
    · exact brief_quiet fun sign hsign ↦ absurd hsign List.not_mem_nil
  | some found =>
    refine ⟨_, _, rfl, ?_, emitChar_length _ _⟩
    intro sign hsign
    split_ifs at hsign
    · exact .inl (List.mem_singleton.mp hsign)
    · exact absurd hsign List.not_mem_nil

theorem feed_brief (reception : Reception) (soft : ℚ) : Brief (reception.feed soft).2 := by
  have hidle : ∀ sign ∈ (reception.listen soft).2, sign = .repaired ∨ sign = .flush := by
    intro sign hsign
    unfold listen at hsign
    split_ifs at hsign
    · exact .inr (List.mem_singleton.mp hsign)
    · exact absurd hsign List.not_mem_nil
  unfold feed
  simp only
  cases (reception.listen soft).1.state with
  | phasing sinceHit =>
    simp only
    split_ifs <;> exact brief_quiet hidle
  | reading sinceSlot nextIsRx =>
    simp only
    split_ifs
    · exact brief_quiet hidle
    · exact (decodeSlot_brief _).append hidle
    · exact brief_quiet hidle

theorem run_cons (reception : Reception) (soft : ℚ) (rest : List ℚ) :
    reception.run (soft :: rest) = (((reception.feed soft).1.run rest).1,
      (reception.feed soft).2 ++ ((reception.feed soft).1.run rest).2) := rfl

theorem run_snoc (reception : Reception) (softs : List ℚ) (soft : ℚ) :
    reception.run (softs ++ [soft]) =
      (((reception.run softs).1.feed soft).1,
        (reception.run softs).2 ++ ((reception.run softs).1.feed soft).2) := by
  induction softs generalizing reception with
  | nil => exact congrArg (Prod.mk _) (List.append_nil _)
  | cons first rest ih =>
    rw [List.cons_append, run_cons, ih, run_cons]
    exact congrArg (Prod.mk _) (List.append_assoc _ _ _).symm

end Reception

/-- The step that receives `soft` hears the last character of two start groups that overlap, while a message
is in progress. -/
def Collides (before : List ℚ) (soft : ℚ) : Prop :=
  (∃ decoder out, Decoder.new.run before = .ok (decoder, out) ∧ decoder.collecting = true) ∧
    heard (signs (before ++ [soft])) ≠ heard (signs before) ∧
    spoken collision <:+ heard (signs (before ++ [soft]))

namespace Decoder

theorem run_snoc (decoder : Decoder) (softs : List ℚ) (soft : ℚ) :
    decoder.run (softs ++ [soft]) =
      decoder.run softs >>= fun early ↦ early.1.feed soft >>= fun late ↦ pure (late.1, early.2 ++ late.2) := by
  rw [run_eq, run_eq, Reception.run_snoc, Page.takeAll_append]
  cases decoder.toPage.takeAll (decoder.toReception.run softs).2 with
  | error halt => rfl
  | ok early =>
    simp only [joined, ok_bind, pure, Except.pure, feed_eq]
    cases early.1.takeAll _ with
    | error halt => rfl
    | ok late => rfl

theorem keeps_new : Keeps new.toPage [] := .inl ⟨rfl, [], [], rfl, (lastFour_nil nulls).symm⟩

/-- One soft bit. -/
theorem feed_handles {before : List ℚ} {soft : ℚ} {decoder : Decoder} {earlier : List NavtexMessage}
    (hrun : new.run before = .ok (decoder, earlier))
    (hreception : decoder.toReception = (({} : Reception).run before).1)
    (hkeeps : Keeps decoder.toPage (heard (signs before))) (hclear : ¬Collides before soft) :
    ∃ next out, decoder.feed soft = .ok (next, out) ∧
      next.toReception = (({} : Reception).run (before ++ [soft])).1 ∧
      Keeps next.toPage (heard (signs (before ++ [soft]))) ∧
      ∀ message ∈ out, message.complete = true → Framed message (heard (signs (before ++ [soft]))) := by
  obtain ⟨quiet, last, hsigns, hquiet, hlast⟩ := Reception.feed_brief (({} : Reception).run before).1 soft
  have htext : signs (before ++ [soft]) = signs before ++ (quiet ++ last) := by
    unfold signs
    rw [Reception.run_snoc, hsigns]
  have hheard : heard (signs (before ++ [soft])) = heard (signs before) ++ heard (quiet ++ last) := by
    rw [htext, heard_append]
  have hsafe : decoder.collecting = true → heard last ≠ [] →
      ¬spoken collision <:+ heard (signs before) ++ heard (quiet ++ last) := by
    intro hcollecting hnew hcollision
    apply hclear
    refine ⟨⟨decoder, earlier, hrun, hcollecting⟩, ?_, hheard ▸ hcollision⟩
    rw [hheard, heard_append quiet]
    intro hsame
    have hnil := List.append_right_eq_self.mp hsame
    exact hnew (List.append_eq_nil_iff.mp hnil).2
  obtain ⟨page, out, hpage, hnext, hout⟩ := Page.takeAll_handles hkeeps hquiet hlast hsafe
  rw [← hheard] at hnext hout
  refine ⟨{ toReception := (({} : Reception).run (before ++ [soft])).1, toPage := page }, out, ?_, rfl, hnext, hout⟩
  rw [feed_eq, hreception, hsigns, hpage, Reception.run_snoc]
  rfl

theorem run_keeps (softs : List ℚ)
    (hclear : ∀ before soft, before ++ [soft] <+: softs → ¬Collides before soft) :
    ∃ decoder out, new.run softs = .ok (decoder, out) ∧
      decoder.toReception = (({} : Reception).run softs).1 ∧ Keeps decoder.toPage (heard (signs softs)) := by
  induction softs using List.reverseRecOn with
  | nil => exact ⟨new, [], rfl, rfl, keeps_new⟩
  | append_singleton softs soft ih =>
    obtain ⟨decoder, earlier, hrun, hreception, hkeeps⟩ :=
      ih fun before soft' hbegins ↦ hclear before soft' (hbegins.trans (List.prefix_append softs [soft]))
    obtain ⟨next, out, hfeed, hreception', hnext, -⟩ :=
      feed_handles hrun hreception hkeeps (hclear softs soft List.prefix_rfl)
    refine ⟨next, earlier ++ out, ?_, hreception', hnext⟩
    rw [run_snoc, hrun, ok_bind, hfeed]
    rfl

end Decoder

/-- As long as no two start groups overlap in a message, no length falls below zero, and each message given
as complete has the text between the last start group and the end group that it ends with. -/
theorem framing (softs : List ℚ)
    (hclear : ∀ before soft, before ++ [soft] <+: softs → ¬Collides before soft) :
    (∃ decoder out, Decoder.new.run softs = .ok (decoder, out)) ∧
      ∀ before soft, before ++ [soft] <+: softs →
        ∃ decoder earlier next out, Decoder.new.run before = .ok (decoder, earlier) ∧
          decoder.feed soft = .ok (next, out) ∧
          ∀ message ∈ out, message.complete = true →
            Framed message (heard (signs (before ++ [soft]))) := by
  refine ⟨?_, ?_⟩
  · obtain ⟨decoder, out, hrun, -⟩ := Decoder.run_keeps softs hclear
    exact ⟨decoder, out, hrun⟩
  · intro before soft hbegins
    obtain ⟨decoder, earlier, hrun, hreception, hkeeps⟩ := Decoder.run_keeps before fun early first hearly ↦
      hclear early first (hearly.trans ((List.prefix_append before [soft]).trans hbegins))
    obtain ⟨next, out, hfeed, -, -, hout⟩ :=
      Decoder.feed_handles hrun hreception hkeeps (hclear before soft hbegins)
    exact ⟨decoder, earlier, next, out, hrun, hfeed, hout⟩

theorem signs_append (first second : List ℚ) : ∃ more, signs (first ++ second) = signs first ++ more := by
  induction second using List.reverseRecOn with
  | nil => exact ⟨[], by rw [List.append_nil, List.append_nil]⟩
  | append_singleton second last ih =>
    obtain ⟨more, hmore⟩ := ih
    unfold signs at hmore ⊢
    exact ⟨_, by rw [← List.append_assoc, Reception.run_snoc, hmore, List.append_assoc]⟩

/-- No step collides if two start groups never overlap in what is heard. -/
theorem clear_of_not_infix {softs : List ℚ} (hheard : ¬spoken collision <:+: heard (signs softs))
    {before : List ℚ} {soft : ℚ} (hbegins : before ++ [soft] <+: softs) : ¬Collides before soft := by
  rintro ⟨-, -, front, hfront⟩
  apply hheard
  obtain ⟨rest, rfl⟩ := hbegins
  obtain ⟨more, hmore⟩ := signs_append (before ++ [soft]) rest
  exact ⟨front, heard more, by rw [hmore, heard_append, hfront]⟩

/-- The soft bits of phasing and of some codes, each of which is sent twice. -/
def transmission (codes : List UInt8) : List ℚ :=
  ([rep, alpha, rep, alpha] ++ codes.flatMap fun code ↦ [code, code]).flatMap fun code ↦
    (List.range charBits).map fun i ↦ if code.toNat.testBit i then 1 else -1

theorem framing_message :
    ∃ decoder out, Decoder.new.run
      (transmission [0x63, 0x1D, 0x63, 0x1D, 0x3A, 0x59, 0x59, 0x59, 0x59]) = .ok (decoder, out) := by
  apply (framing _ _).1
  have hheard : heard (signs (transmission [0x63, 0x1D, 0x63, 0x1D, 0x3A, 0x59, 0x59, 0x59, 0x59])) =
      spoken ['Z', 'C', 'Z', 'C', 'X', 'N', 'N', 'N', 'N'] := by decide +kernel
  exact fun before soft ↦ clear_of_not_infix (by rw [hheard]; decide)

def panics {α : Type} : Except Halt α → Bool
  | .error .panic => true
  | _ => false

theorem panics_iff {α : Type} {result : Except Halt α} : panics result = true ↔ result = .error .panic := by
  constructor
  · intro hpanics
    match result with
    | .error .panic => rfl
  · rintro rfl
    rfl

/-- A start group that is directly followed by the last two characters of another one. -/
theorem framing_overlap :
    Decoder.new.run (transmission [0x63, 0x1D, 0x63, 0x1D, 0x63, 0x1D]) = .error .panic := by
  apply panics_iff.mp
  decide +kernel

end Sdrmm.Navtex
