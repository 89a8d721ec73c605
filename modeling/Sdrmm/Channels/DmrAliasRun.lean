import Sdrmm.Channels.DmrAlias

/-!
# Talker aliases from call to call

What a timeslot reports of the aliases of the calls on it, of which any link controls may be lost.  An alias is
blended when a block of a call completes what was held before the call.
-/

namespace Sdrmm.Dmr

/-- A link control of an alias. -/
def CarriesAlias (lc : List Bool) : Prop :=
  (bitsToU32 lc 8 8 = 0 ∧ 4 ≤ bitsToU32 lc 2 6 ∧ bitsToU32 lc 2 6 ≤ 7) ∨
    (bitsToU32 lc 8 8 = 0x68 ∧ 4 ≤ bitsToU32 lc 2 6 ∧ bitsToU32 lc 2 6 ≤ 7) ∨
    (bitsToU32 lc 8 8 = 0x10 ∧ 0x14 ≤ bitsToU32 lc 2 6 ∧ bitsToU32 lc 2 6 ≤ 0x17)

instance (lc : List Bool) : Decidable (CarriesAlias lc) := by
  unfold CarriesAlias
  infer_instance

/-- Any other link control leaves the alias alone. -/
theorem decodeLc_other (slot : SlotState) {lc : List Bool} (hother : ¬CarriesAlias lc) :
    (decodeLc slot lc).1 = slot ∧ (decodeLc slot lc).2.talkerAlias = none := by
  obtain ⟨hstandard, hothers⟩ := not_or.mp hother
  obtain ⟨hhytera, hmotorola⟩ := not_or.mp hothers
  unfold decodeLc
  dsimp only
  rw [if_neg hstandard, if_neg hhytera, if_neg hmotorola]
  split_ifs
  all_goals exact ⟨rfl, rfl⟩

/-- A link control of an alias goes to the alias that is held. -/
theorem decodeLc_talker (slot : SlotState) (talker : Talker) (service : Service) {block : ℕ} (hblock : block ≤ 3) :
    (decodeLc slot (talker.lc service block)).1.talkerAlias =
        (slot.talkerAlias.update (4 + block) (talker.lc service block)).1 ∧
      (decodeLc slot (talker.lc service block)).2.talkerAlias =
        (slot.talkerAlias.update (4 + block) (talker.lc service block)).2 := by
  have hflco := talker.flco_lc service hblock
  have hfid := talker.fid_lc service block
  unfold decodeLc
  dsimp only
  cases service with
  | standard =>
    simp only [Service.fid, Service.flco] at hfid hflco
    rw [if_neg (by omega), if_pos (by omega), ← hflco]
    exact ⟨rfl, rfl⟩
  | hytera =>
    simp only [Service.fid, Service.flco] at hfid hflco
    rw [if_neg (by omega), if_neg (by omega), if_pos (by omega), ← hflco]
    exact ⟨rfl, rfl⟩
  | motorola =>
    simp only [Service.fid, Service.flco] at hfid hflco
    rw [if_neg (by omega), if_neg (by omega), if_neg (by omega), if_pos (by omega),
      show 4 + block = bitsToU32 (talker.lc .motorola block) 2 6 - 0x10 by omega]
    exact ⟨rfl, rfl⟩

/-- A call: its header, as many rounds of the link controls of its alias, of which some are heard, and its
terminator. -/
structure Call where
  talker : Talker
  service : Service
  header : List Bool
  opened : ¬CarriesAlias header
  terminator : List Bool
  closed : ¬CarriesAlias terminator
  rounds : ℕ
  heard : List ℕ
  sent : heard.Sublist (List.replicate rounds (List.range (talker.blocks + 1))).flatten

namespace Call

/-- The heard link controls of an alias. -/
def embedded (call : Call) (heard : List ℕ) : List Received :=
  heard.map fun block ↦ .embedded (call.talker.lc call.service block)

def received (call : Call) : List Received :=
  .header call.header :: (call.embedded call.heard ++ [.terminator call.terminator])

theorem blocks_le (talker : Talker) : talker.blocks ≤ 3 := by
  have hfits : talker.bits.length ≤ headBits talker.format + 168 := talker.fits
  unfold Talker.blocks
  omega

theorem heard_le (call : Call) : ∀ block ∈ call.heard, block ≤ 3 := by
  intro block hblock
  obtain ⟨round, hround, hmem⟩ := List.mem_flatten.mp (call.sent.subset hblock)
  rw [List.eq_of_mem_replicate hround] at hmem
  have hlt := List.mem_range.mp hmem
  have hblocks := blocks_le call.talker
  omega

/-- The timeslot when some link controls of the alias have been heard since the call's header. -/
def slotAt (call : Call) (slot : SlotState) (heard : List ℕ) : SlotState :=
  slot.after (.header call.header :: call.embedded heard)

/-- A block that comes next and completes what is held comes after the call's own header, or what was held when the
call was opened is of the same alias. -/
def OwnHeader (call : Call) (slot : SlotState) (early : List ℕ) (block : ℕ) : Prop :=
  0 < block → (call.slotAt slot early).talkerAlias.nextBlock = 4 + block →
    (∃ needed, (call.slotAt slot early).talkerAlias.needed = some needed ∧
      needed ≤ (call.slotAt slot early).talkerAlias.bits.length + 56) →
    0 ∈ early ∨ ∃ blocks, slot.talkerAlias = call.talker.held blocks

variable {call : Call} {slot : SlotState}

theorem slotAt_nil : (call.slotAt slot []).talkerAlias = slot.talkerAlias := by
  change (decodeLc slot call.header).1.talkerAlias = slot.talkerAlias
  rw [(decodeLc_other slot call.opened).1]

theorem slotAt_snoc (early : List ℕ) (block : ℕ) :
    call.slotAt slot (early ++ [block]) =
      ((call.slotAt slot early).receive (.embedded (call.talker.lc call.service block))).1 := by
  unfold slotAt SlotState.after embedded
  rw [List.map_append, List.map_singleton, ← List.cons_append, List.foldl_append]
  rfl

/-- One link control more. -/
theorem step_held {block : ℕ} (hblock : block ≤ 3) {before : TalkerAlias} {blocks : ℕ}
    (hheld : block = 0 ∨ before = call.talker.held blocks) :
    ∃ blocks, (before.update (4 + block) (call.talker.lc call.service block)).1 = call.talker.held blocks := by
  cases block with
  | zero => exact ⟨0, congrArg Prod.fst (call.talker.update_header call.service before)⟩
  | succ block =>
    obtain rfl := hheld.resolve_left (Nat.succ_ne_zero block)
    rw [show 4 + (block + 1) = 5 + block by omega, call.talker.update_block call.service _ (by omega)]
    split
    · rename_i hnext
      have hsame : block = blocks := Nat.add_left_cancel hnext
      subst hsame
      exact ⟨block + 1, call.talker.held_append block⟩
    · exact ⟨blocks, rfl⟩

/-- From the call's own header on, what is held is of its alias. -/
theorem held_after {early : List ℕ} (hearly : ∀ block ∈ early, block ≤ 3)
    (hown : 0 ∈ early ∨ ∃ blocks, slot.talkerAlias = call.talker.held blocks) :
    ∃ blocks, (call.slotAt slot early).talkerAlias = call.talker.held blocks := by
  induction early using List.reverseRecOn with
  | nil =>
    rw [slotAt_nil]
    exact hown.resolve_left List.not_mem_nil
  | append_singleton early block ih =>
    have hblock := hearly block (List.mem_append_right _ (List.mem_singleton.mpr rfl))
    have hbefore : ∀ other ∈ early, other ≤ 3 := fun other hother ↦ hearly other (List.mem_append_left _ hother)
    rw [slotAt_snoc]
    change ∃ blocks, (decodeLc (call.slotAt slot early) _).1.talkerAlias = _
    rw [(decodeLc_talker _ call.talker call.service hblock).1]
    by_cases hzero : block = 0
    · have hheld : block = 0 ∨ (call.slotAt slot early).talkerAlias = call.talker.held 0 := Or.inl hzero
      exact step_held hblock hheld
    · have hheld : 0 ∈ early ∨ ∃ blocks, slot.talkerAlias = call.talker.held blocks := by
        rcases hown with hmem | hheld
        · rcases List.mem_append.mp hmem with hmem | hlast
          · exact Or.inl hmem
          · exact absurd (List.mem_singleton.mp hlast).symm hzero
        · exact Or.inr hheld
      obtain ⟨blocks, hblocks⟩ := ih hbefore hheld
      exact step_held hblock (Or.inr hblocks)

/-- What is reported with a link control of the alias. -/
theorem reported_own {early : List ℕ} {block : ℕ} (hearly : ∀ block ∈ early, block ≤ 3) (hblock : block ≤ 3)
    (hown : call.OwnHeader slot early block) {shown : List Char}
    (hshown : ((call.slotAt slot early).receive (.embedded (call.talker.lc call.service block))).2.talkerAlias =
      some shown) : shown = trimEndNul call.talker.text := by
  change (decodeLc (call.slotAt slot early) _).2.talkerAlias = _ at hshown
  rw [(decodeLc_talker _ call.talker call.service hblock).2] at hshown
  cases block with
  | zero =>
    rw [call.talker.update_header] at hshown
    exact call.talker.decode_held hshown
  | succ block =>
    rw [show 4 + (block + 1) = 5 + block by omega, call.talker.update_block call.service _ (by omega)] at hshown
    split at hshown
    · rename_i hnext
      have hcompletes : ∃ needed, (call.slotAt slot early).talkerAlias.needed = some needed ∧
          needed ≤ (call.slotAt slot early).talkerAlias.bits.length + 56 := by
        unfold TalkerAlias.decode at hshown
        obtain ⟨needed, hneeded, hdecoded⟩ := Option.bind_eq_some_iff.mp hshown
        refine ⟨needed, hneeded, ?_⟩
        split at hdecoded
        · exact nomatch hdecoded
        · rename_i hlong
          rw [Talker.appended, List.length_append, call.talker.length_payload (by omega)] at hlong
          exact Nat.not_lt.mp hlong
      obtain ⟨blocks, hblocks⟩ := held_after hearly (hown (Nat.succ_pos block) (by omega) hcompletes)
      rw [hblocks] at hnext hshown
      have hsame : block = blocks := Nat.add_left_cancel hnext
      subst hsame
      rw [call.talker.held_append] at hshown
      exact call.talker.decode_held hshown
    · exact nomatch hshown

end Call

/-! ## Runs -/

/-- The timeslot after some calls. -/
def slotAfter (calls : List Call) : SlotState := SlotState.default.after (calls.flatMap Call.received)

/-- Where no block completes what was held of another alias before the call's own header was heard, every alias that
is reported is the call's own. -/
theorem alias_own (calls : List Call)
    (hown : ∀ before call later, calls = before ++ call :: later → ∀ early block late,
      call.heard = early ++ block :: late → call.OwnHeader (slotAfter before) early block)
    (before : List Call) (call : Call) (later : List Call) (hcalls : calls = before ++ call :: later)
    (early : List Received) (received : Received) (late : List Received)
    (hreceived : call.received = early ++ received :: late) (shown : List Char)
    (hshown : (((slotAfter before).after early).receive received).2.talkerAlias = some shown) :
    shown = trimEndNul call.talker.text := by
  have hterminator : ∀ slot : SlotState, (slot.receive (.terminator call.terminator)).2.talkerAlias = none :=
    fun slot ↦ (decodeLc_other slot call.closed).2
  rw [Call.received] at hreceived
  rcases List.append_eq_cons_iff.mp hreceived.symm with ⟨-, hheader⟩ | ⟨early, rfl, hrest⟩
  · obtain ⟨rfl, -⟩ := List.cons_eq_cons.mp hheader.symm
    exact nomatch (decodeLc_other _ call.opened).2.symm.trans hshown
  · rcases List.append_eq_append_iff.mp hrest with ⟨tail, -, htail⟩ | ⟨tail, hembedded, htail⟩
    · have hlast : received = .terminator call.terminator := by
        cases tail with
        | nil => exact (List.cons_eq_cons.mp htail).1.symm
        | cons first tail =>
          have hnil := (List.cons_eq_cons.mp htail).2
          exact absurd hnil.symm (List.append_ne_nil_of_right_ne_nil _ (List.cons_ne_nil _ _))
      rw [hlast, hterminator] at hshown
      exact nomatch hshown
    · cases tail with
      | nil =>
        rw [(List.cons_eq_cons.mp htail).1, hterminator] at hshown
        exact nomatch hshown
      | cons first tail =>
        obtain ⟨rfl, -⟩ := List.cons_eq_cons.mp htail
        obtain ⟨earlyHeard, rest, hheard, rfl, hrestHeard⟩ := List.map_eq_append_iff.mp hembedded
        obtain ⟨block, lateHeard, rfl, rfl, -⟩ := List.map_eq_cons_iff.mp hrestHeard
        have hblocks := call.heard_le
        rw [hheard] at hblocks
        exact Call.reported_own (fun other hother ↦ hblocks other (List.mem_append_left _ hother))
          (hblocks block (List.mem_append_right _ List.mem_cons_self))
          (hown before call later hcalls earlyHeard block lateHeard hheard) hshown

/-- A call whose first link control of the alias is the header. -/
theorem ownHeader_of_header_first {call : Call} (hfirst : call.heard.head? = some 0 ∨ call.heard = [])
    (slot : SlotState) {early late : List ℕ} {block : ℕ} (hheard : call.heard = early ++ block :: late) :
    call.OwnHeader slot early block := by
  intro hpos _ _
  left
  rw [hheard] at hfirst
  cases early with
  | nil =>
    rcases hfirst with hzero | hnil
    · exact absurd (Option.some_inj.mp hzero) hpos.ne'
    · exact nomatch hnil
  | cons first early =>
    rcases hfirst with hzero | hnil
    · rw [Option.some_inj.mp hzero]
      exact List.mem_cons_self
    · exact nomatch hnil

/-! ## Two calls that are blended -/

theorem writes_latin {text : List Char} (hlatin : text.all (fun c ↦ decide (c.toNat < 256)) = true) : Writes 1 text :=
  ⟨nofun, fun _ c hc ↦ of_decide_eq_true (List.all_eq_true.mp hlatin c hc)⟩

def alphaAlpha : Talker where
  format := 1
  text := "ALPHA ALPHA".toList
  writes := writes_latin rfl
  fits := by decide

def bravoBravo : Talker where
  format := 1
  text := "BRAVO BRAVO".toList
  writes := writes_latin rfl
  fits := by decide

/-- A call of which some link controls of the alias are heard. -/
def callOf (talker : Talker) (heard : List ℕ)
    (sent : heard.Sublist (List.replicate 1 (List.range (talker.blocks + 1))).flatten) : Call where
  talker := talker
  service := .standard
  header := List.replicate 72 false
  opened := by decide
  terminator := List.replicate 72 false
  closed := by decide
  rounds := 1
  heard := heard
  sent := sent

theorem alphaAlpha_sent : [0].Sublist (List.replicate 1 (List.range (alphaAlpha.blocks + 1))).flatten :=
  List.Sublist.cons_cons 0 (List.Sublist.cons 1 .slnil)

theorem bravoBravo_sent : [0, 1].Sublist (List.replicate 1 (List.range (bravoBravo.blocks + 1))).flatten :=
  List.Sublist.refl [0, 1]

theorem bravoBravo_block_sent : [1].Sublist (List.replicate 1 (List.range (bravoBravo.blocks + 1))).flatten :=
  List.Sublist.cons 0 (List.Sublist.refl [1])

/-- The first call's block and the second call's header are lost. -/
theorem alias_blended :
    let first := callOf alphaAlpha [0] alphaAlpha_sent
    let second := callOf bravoBravo [1] bravoBravo_block_sent
    ((second.slotAt (slotAfter [first]) []).receive (.embedded (bravoBravo.lc .standard 1))).2.talkerAlias =
        some "ALPHA BRAVO".toList ∧
      "ALPHA BRAVO".toList ≠ trimEndNul bravoBravo.text := by
  decide +kernel

/-- The same calls with both headers heard. -/
theorem alias_own_heard : "BRAVO BRAVO".toList = trimEndNul bravoBravo.text := by
  apply alias_own [callOf alphaAlpha [0] alphaAlpha_sent, callOf bravoBravo [0, 1] bravoBravo_sent] _
    [callOf alphaAlpha [0] alphaAlpha_sent] (callOf bravoBravo [0, 1] bravoBravo_sent) [] rfl
    [.header (List.replicate 72 false), .embedded (bravoBravo.lc .standard 0)]
    (.embedded (bravoBravo.lc .standard 1)) [.terminator (List.replicate 72 false)] rfl
  · decide +kernel
  · intro before call later hcalls early block late hheard
    have hmem : call ∈ [callOf alphaAlpha [0] alphaAlpha_sent, callOf bravoBravo [0, 1] bravoBravo_sent] := by
      rw [hcalls]
      exact List.mem_append_right _ List.mem_cons_self
    apply ownHeader_of_header_first _ _ hheard
    rcases List.mem_cons.mp hmem with rfl | hsecond
    · exact Or.inl rfl
    · rw [List.mem_singleton.mp hsecond]
      exact Or.inl rfl

end Sdrmm.Dmr
