import Sdrmm.Lib.SortedMap

/-!
# Radio images

The sparse memory image of `cps/src/image.rs`: segments of bytes under their start addresses.  The
image is meant to be a partial memory in which a new allocation never touches what is there already.
That holds as long as no allocation reaches over the start of a later segment, since nothing then
cuts it short: `sparse_iff` is that this is exactly what a run of allocations and writes depends on.
-/

namespace Sdrmm.Cps

/-- The number of addresses. -/
def addressSpace : ℕ := 2 ^ 32

structure Image where
  segments : SortedMap ℕ (List UInt8)

namespace Image

def new : Image := ⟨SortedMap.empty⟩

def segmentFor (image : Image) (addr len : ℕ) : Option (ℕ × List UInt8) :=
  (image.segments.floor addr).bind fun found ↦
    if addr - found.1 + len ≤ found.2.length then some found else none

def get (image : Image) (addr len : ℕ) : Option (List UInt8) :=
  (image.segmentFor addr len).map fun found ↦ (found.2.drop (addr - found.1)).take len

/-- `Vec::resize`. -/
def resize (segment : List UInt8) (wanted : ℕ) (fill : UInt8) : List UInt8 :=
  segment.take wanted ++ List.replicate (wanted - segment.length) fill

/-- The start of the segment after `addr`, with the address after it capped. -/
def nextStart (image : Image) (addr : ℕ) : Option ℕ :=
  (image.segments.ceil (min (addr + 1) (addressSpace - 1))).map Prod.fst

def allocate (image : Image) (addr len : ℕ) (fill : UInt8) : Image :=
  if len = 0 ∨ (image.get addr len).isSome then image
  else
    match image.segments.floor addr with
    | some (start, segment) =>
        let wanted := addr - start + len
        if addr - start ≤ segment.length ∧
            (image.nextStart addr).all fun next ↦ start + wanted ≤ next then
          ⟨image.segments.insert start (resize segment wanted fill)⟩
        else ⟨image.segments.insert addr (List.replicate len fill)⟩
    | none => ⟨image.segments.insert addr (List.replicate len fill)⟩

/-- Overwriting what `get_mut` gives for the range of `data`. -/
def write (image : Image) (addr : ℕ) (data : List UInt8) : Image :=
  match image.segmentFor addr data.length with
  | some (start, segment) =>
      let offset := addr - start
      ⟨image.segments.insert start
        (segment.take offset ++ data ++ segment.drop (offset + data.length))⟩
  | none => image

end Image

/-! ## Runs -/

inductive ImageOp
  | allocate (addr len : ℕ) (fill : UInt8)
  | write (addr : ℕ) (data : List UInt8)

namespace ImageOp

def apply (image : Image) : ImageOp → Image
  | allocate addr len fill => image.allocate addr len fill
  | write addr data => image.write addr data

/-- The ranges that allocations are made for. -/
def Valid : ImageOp → Prop
  | allocate addr len _ => 1 ≤ len ∧ addr + len ≤ addressSpace
  | write _ _ => True

end ImageOp

namespace Image

def run (image : Image) (ops : List ImageOp) : Image := ops.foldl ImageOp.apply image

/-- No segment reaches into a later one. -/
def NoOverlap (image : Image) : Prop :=
  ∀ a ∈ image.segments.entries, ∀ b ∈ image.segments.entries,
    a.1 < b.1 → a.1 + a.2.length ≤ b.1

def byte (image : Image) (addr : ℕ) : Option UInt8 :=
  (image.get addr 1).bind List.head?

/-- What an operation must do to an image to keep it a sparse memory. -/
structure Keeps (image : Image) (op : ImageOp) : Prop where
  noOverlap : (op.apply image).NoOverlap
  readable : ∀ addr len fill, op = .allocate addr len fill →
    ∀ at' value, image.byte at' = some value → (op.apply image).byte at' = some value
  allocated : ∀ addr len fill, op = .allocate addr len fill →
    ((op.apply image).get addr len).isSome

/-- An image is a sparse memory through all of a run. -/
def Sparse (image : Image) (ops : List ImageOp) : Prop :=
  ∀ before op after, ops = before ++ op :: after → (image.run before).Keeps op

/-- An allocation that finds its range there, or that no later segment starts in. -/
def Fits (image : Image) : ImageOp → Prop
  | .allocate addr len _ =>
      (image.get addr len).isSome ∨
        ∀ entry ∈ image.segments.entries, ¬(addr < entry.1 ∧ entry.1 < addr + len)
  | .write _ _ => True

instance (image : Image) (op : ImageOp) : Decidable (image.Fits op) :=
  match op with
  | .allocate addr len _ =>
      inferInstanceAs (Decidable ((image.get addr len).isSome ∨
        ∀ entry ∈ image.segments.entries, ¬(addr < entry.1 ∧ entry.1 < addr + len)))
  | .write _ _ => inferInstanceAs (Decidable True)

/-- Segments are not empty and stay within the address space. -/
structure WellFormed (image : Image) : Prop where
  nonempty : ∀ entry ∈ image.segments.entries, 0 < entry.2.length
  bounded : ∀ entry ∈ image.segments.entries, entry.1 + entry.2.length ≤ addressSpace

/-! ## Reading -/

variable {image : Image} {addr len : ℕ}

theorem segmentFor_eq_some {found : ℕ × List UInt8} (hfound : image.segmentFor addr len = some found) :
    image.segments.floor addr = some found ∧ addr - found.1 + len ≤ found.2.length := by
  obtain ⟨floor, hfloor, hlength⟩ := Option.bind_eq_some_iff.mp hfound
  split_ifs at hlength with hfits
  obtain rfl := Option.some.inj hlength
  exact ⟨hfloor, hfits⟩

/-- In an image without overlaps a range is found in whichever segment holds it. -/
theorem segmentFor_of_mem (hdisjoint : image.NoOverlap) (hlen : 0 < len) {entry : ℕ × List UInt8}
    (hmem : entry ∈ image.segments.entries) (hle : entry.1 ≤ addr)
    (hend : addr + len ≤ entry.1 + entry.2.length) : image.segmentFor addr len = some entry := by
  have hfloor : image.segments.floor addr = some entry := by
    rw [SortedMap.floor_eq_some]
    refine ⟨hmem, hle, ?_⟩
    intro other hother hbelow
    by_contra! hlt
    have := hdisjoint entry hmem other hother hlt
    omega
  rw [segmentFor, hfloor, Option.bind_some, if_pos (by omega)]

theorem get_isSome_of_mem (hdisjoint : image.NoOverlap) (hlen : 0 < len) {entry : ℕ × List UInt8}
    (hmem : entry ∈ image.segments.entries) (hle : entry.1 ≤ addr)
    (hend : addr + len ≤ entry.1 + entry.2.length) : (image.get addr len).isSome := by
  rw [get, segmentFor_of_mem hdisjoint hlen hmem hle hend]
  rfl

theorem byte_eq_some (hdisjoint : image.NoOverlap) {value : UInt8} :
    image.byte addr = some value ↔ ∃ entry ∈ image.segments.entries, entry.1 ≤ addr ∧
      entry.2[addr - entry.1]? = some value := by
  constructor
  · intro hbyte
    obtain ⟨bytes, hget, hhead⟩ := Option.bind_eq_some_iff.mp hbyte
    obtain ⟨entry, hentry, rfl⟩ := Option.map_eq_some_iff.mp hget
    have hfloor := SortedMap.floor_mem (segmentFor_eq_some hentry).1
    refine ⟨entry, hfloor.1, hfloor.2, ?_⟩
    rwa [List.head?_take, if_neg one_ne_zero, List.head?_drop] at hhead
  · rintro ⟨entry, hmem, hle, hvalue⟩
    have hlt := (List.getElem?_eq_some_iff.mp hvalue).1
    rw [byte, get, segmentFor_of_mem hdisjoint Nat.one_pos hmem hle (by omega)]
    simp only [Option.map_some, Option.bind_some]
    rwa [List.head?_take, if_neg one_ne_zero, List.head?_drop]

/-- What an image holds is still there when its segments only grow at their ends. -/
theorem byte_of_grown {grown : Image} (hdisjoint : image.NoOverlap) (hgrown : grown.NoOverlap)
    (hextends : ∀ entry ∈ image.segments.entries, ∃ more,
      (entry.1, entry.2 ++ more) ∈ grown.segments.entries) {value : UInt8}
    (hbyte : image.byte addr = some value) : grown.byte addr = some value := by
  obtain ⟨entry, hmem, hle, hvalue⟩ := (byte_eq_some hdisjoint).mp hbyte
  obtain ⟨more, hmore⟩ := hextends entry hmem
  apply (byte_eq_some hgrown).mpr
  refine ⟨_, hmore, hle, ?_⟩
  rw [List.getElem?_append_left (List.getElem?_eq_some_iff.mp hvalue).1]
  exact hvalue

/-! ## Allocating -/

theorem WellFormed.start_lt (hwf : image.WellFormed) {entry : ℕ × List UInt8}
    (hmem : entry ∈ image.segments.entries) : entry.1 < addressSpace := by
  have := hwf.nonempty entry hmem
  have := hwf.bounded entry hmem
  omega

theorem lt_of_get_eq_none {found : ℕ × List UInt8} (hnone : image.get addr len = none)
    (hfloor : image.segments.floor addr = some found) : found.2.length < addr - found.1 + len := by
  rw [get, Option.map_eq_none_iff, segmentFor, hfloor, Option.bind_some] at hnone
  split_ifs at hnone with hfits
  exact not_le.mp hfits

/-- The room left for a segment is up to the next start. -/
theorem room_iff (hwf : image.WellFormed) (hlen : 1 ≤ len) (hend : addr + len ≤ addressSpace)
    (hnone : image.get addr len = none) {found : ℕ × List UInt8}
    (hfloor : image.segments.floor addr = some found) :
    (image.nextStart addr).all (fun next ↦ found.1 + (addr - found.1 + len) ≤ next) = true ↔
      ∀ entry ∈ image.segments.entries, addr < entry.1 → addr + len ≤ entry.1 := by
  have hle := (SortedMap.floor_mem hfloor).2
  have hsum : found.1 + (addr - found.1 + len) = addr + len := by omega
  rw [hsum, nextStart]
  rcases lt_or_eq_of_le (show addr + 1 ≤ addressSpace by omega) with hbelow | htop
  · rw [min_eq_left (by omega)]
    cases hceil : image.segments.ceil (addr + 1) with
    | none =>
      have hlow := SortedMap.ceil_eq_none.mp hceil
      simp only [Option.map_none, Option.all_none, true_iff]
      intro entry hentry hlt
      exact absurd (hlow entry hentry) (by omega)
    | some next =>
      have hnext := SortedMap.ceil_mem hceil
      simp only [Option.map_some, Option.all_some, decide_eq_true_iff]
      constructor
      · intro hroom entry hentry hlt
        exact hroom.trans (SortedMap.ceil_le hceil hentry hlt)
      · intro hall
        exact hall next hnext.1 hnext.2
  · -- At the last address the capped search finds the segment that starts there, if any.
    have hfar : ∀ entry ∈ image.segments.entries, addr < entry.1 → addr + len ≤ entry.1 := by
      intro entry hentry hlt
      have := hwf.start_lt hentry
      omega
    refine iff_of_true ?_ hfar
    rw [min_eq_right (by omega)]
    cases hceil : image.segments.ceil (addressSpace - 1) with
    | none => rfl
    | some next =>
      have hnext := SortedMap.ceil_mem hceil
      have hlt := hwf.start_lt hnext.1
      have hsame : next.1 ≤ found.1 := SortedMap.le_floor hfloor hnext.1 (by omega)
      have hheld := hwf.nonempty found (SortedMap.floor_mem hfloor).1
      have hshort := lt_of_get_eq_none hnone hfloor
      omega

/-- What an allocation does. -/
theorem allocate_cases (hwf : image.WellFormed) (hlen : 1 ≤ len) (hend : addr + len ≤ addressSpace)
    (fill : UInt8) :
    ((image.get addr len).isSome ∧ image.allocate addr len fill = image) ∨
    (∃ found, image.segments.floor addr = some found ∧ addr - found.1 ≤ found.2.length ∧
      found.2.length < addr - found.1 + len ∧
      (∀ entry ∈ image.segments.entries, addr < entry.1 → addr + len ≤ entry.1) ∧
      image.allocate addr len fill = ⟨image.segments.insert found.1
        (found.2 ++ List.replicate (addr - found.1 + len - found.2.length) fill)⟩) ∨
    (image.get addr len = none ∧
      ((∀ found ∈ image.segments.floor addr, found.1 + found.2.length < addr) ∨
        ∃ entry ∈ image.segments.entries, addr < entry.1 ∧ entry.1 < addr + len) ∧
      image.allocate addr len fill =
        ⟨image.segments.insert addr (List.replicate len fill)⟩) := by
  cases hget : image.get addr len with
  | some bytes => exact Or.inl ⟨rfl, by rw [allocate, hget, if_pos (Or.inr Option.isSome_some)]⟩
  | none =>
    right
    have hzero : ¬(len = 0 ∨ (none : Option (List UInt8)).isSome) := by
      simp only [Option.isSome_none, Bool.false_eq_true, or_false]
      omega
    rw [allocate, hget, if_neg hzero]
    cases hfloor : image.segments.floor addr with
    | none => exact Or.inr ⟨rfl, Or.inl (by simp), rfl⟩
    | some found =>
      have hroom := room_iff hwf hlen hend hget hfloor
      have hshort := lt_of_get_eq_none hget hfloor
      have hle := (SortedMap.floor_mem hfloor).2
      simp only
      split_ifs with hgrow
      · left
        refine ⟨found, rfl, hgrow.1, hshort, hroom.mp hgrow.2, ?_⟩
        rw [resize, List.take_of_length_le hshort.le]
      · right
        refine ⟨trivial, ?_, rfl⟩
        rw [not_and_or, hroom] at hgrow
        rcases hgrow with hgap | hnext
        · left
          rintro other ⟨⟩
          omega
        · right
          push Not at hnext
          exact hnext

/-- Replacing a segment by one that reaches no further than the next start allows. -/
theorem noOverlap_insert (hdisjoint : image.NoOverlap) {start : ℕ} {segment : List UInt8}
    (hbelow : ∀ entry ∈ image.segments.entries, entry.1 < start → entry.1 + entry.2.length ≤ start)
    (habove : ∀ entry ∈ image.segments.entries, start < entry.1 →
      start + segment.length ≤ entry.1) : NoOverlap ⟨image.segments.insert start segment⟩ := by
  intro a ha b hb hlt
  rcases SortedMap.mem_insert.mp ha with rfl | ⟨ha, _⟩
  · rcases SortedMap.mem_insert.mp hb with rfl | ⟨hb, _⟩
    · exact absurd hlt (lt_irrefl _)
    · exact habove b hb hlt
  · rcases SortedMap.mem_insert.mp hb with rfl | ⟨hb, _⟩
    · exact hbelow a ha hlt
    · exact hdisjoint a ha b hb hlt

theorem WellFormed.insert (hwf : image.WellFormed) {start : ℕ} {segment : List UInt8}
    (hnonempty : 0 < segment.length) (hbounded : start + segment.length ≤ addressSpace) :
    WellFormed ⟨image.segments.insert start segment⟩ where
  nonempty entry hentry := by
    rcases SortedMap.mem_insert.mp hentry with rfl | ⟨hold, _⟩
    · exact hnonempty
    · exact hwf.nonempty entry hold
  bounded entry hentry := by
    rcases SortedMap.mem_insert.mp hentry with rfl | ⟨hold, _⟩
    · exact hbounded
    · exact hwf.bounded entry hold

/-- A write keeps the start and length of every segment. -/
theorem write_cases (image : Image) (addr : ℕ) (data : List UInt8) :
    image.write addr data = image ∨ ∃ found ∈ image.segments.entries, ∃ segment : List UInt8,
      segment.length = found.2.length ∧
        image.write addr data = ⟨image.segments.insert found.1 segment⟩ := by
  rw [write]
  cases hfound : image.segmentFor addr data.length with
  | none => exact Or.inl rfl
  | some found =>
    obtain ⟨hfloor, hfits⟩ := segmentFor_eq_some hfound
    refine Or.inr ⟨found, (SortedMap.floor_mem hfloor).1, _, ?_, rfl⟩
    rw [List.length_append, List.length_append, List.length_take, List.length_drop]
    omega

/-- Segments stay well formed whatever is done to the image. -/
theorem WellFormed.apply (hwf : image.WellFormed) {op : ImageOp} (hvalid : op.Valid) :
    (op.apply image).WellFormed := by
  cases op with
  | write addr data =>
    rcases write_cases image addr data with hsame | ⟨found, hmem, segment, hlength, hwrite⟩
    · rwa [ImageOp.apply, hsame]
    · rw [ImageOp.apply, hwrite]
      apply hwf.insert
      · rw [hlength]
        exact hwf.nonempty found hmem
      · rw [hlength]
        exact hwf.bounded found hmem
  | allocate addr len fill =>
    obtain ⟨hlen, hend⟩ := hvalid
    rw [ImageOp.apply]
    rcases allocate_cases hwf hlen hend fill with
      ⟨_, hsame⟩ | ⟨found, hfloor, _, hshort, _, hgrow⟩ | ⟨_, _, hinsert⟩
    · rwa [hsame]
    · have hle := (SortedMap.floor_mem hfloor).2
      rw [hgrow]
      apply hwf.insert <;> rw [List.length_append, List.length_replicate] <;> omega
    · rw [hinsert]
      apply hwf.insert <;> rw [List.length_replicate] <;> omega

/-- A write to an image without overlaps. -/
theorem NoOverlap.write (hdisjoint : image.NoOverlap) (addr : ℕ) (data : List UInt8) :
    (image.write addr data).NoOverlap := by
  rcases write_cases image addr data with hsame | ⟨found, hmem, segment, hlength, hwrite⟩
  · rwa [hsame]
  · rw [hwrite]
    apply noOverlap_insert hdisjoint
    · intro entry hentry hlt
      exact hdisjoint entry hentry found hmem hlt
    · intro entry hentry hlt
      rw [hlength]
      exact hdisjoint found hmem entry hentry hlt

/-- An image with one segment grown at its end or put where nothing was still has all the others. -/
theorem extends_insert {start : ℕ} (segment more : List UInt8)
    (hold : ∀ entry ∈ image.segments.entries, entry.1 = start → entry.2 = segment) :
    ∀ entry ∈ image.segments.entries, ∃ suffix,
      (entry.1, entry.2 ++ suffix) ∈ (image.segments.insert start (segment ++ more)).entries := by
  intro entry hentry
  by_cases hstart : entry.1 = start
  · refine ⟨more, SortedMap.mem_insert.mpr (Or.inl ?_)⟩
    rw [hstart, hold entry hentry hstart]
  · refine ⟨[], SortedMap.mem_insert.mpr (Or.inr ⟨?_, hstart⟩)⟩
    rwa [List.append_nil]

/-- Growing the segment below the range up to the end of the range. -/
theorem grow_keeps (hdisjoint : image.NoOverlap) (hlen : 1 ≤ len) {found : ℕ × List UInt8}
    (hfloor : image.segments.floor addr = some found) (more : List UInt8)
    (hlength : (found.2 ++ more).length = addr - found.1 + len)
    (hroom : ∀ entry ∈ image.segments.entries, addr < entry.1 → addr + len ≤ entry.1) :
    NoOverlap ⟨image.segments.insert found.1 (found.2 ++ more)⟩ ∧
      (get ⟨image.segments.insert found.1 (found.2 ++ more)⟩ addr len).isSome := by
  obtain ⟨hmem, hle⟩ := SortedMap.floor_mem hfloor
  have hgrown : NoOverlap ⟨image.segments.insert found.1 (found.2 ++ more)⟩ := by
    apply noOverlap_insert hdisjoint
    · intro entry hentry hlt
      exact hdisjoint entry hentry found hmem hlt
    · intro entry hentry hlt
      rw [hlength]
      by_cases hbefore : entry.1 ≤ addr
      · exact absurd (SortedMap.le_floor hfloor hentry hbefore) (by omega)
      · have := hroom entry hentry (by omega)
        omega
  refine ⟨hgrown, ?_⟩
  apply get_isSome_of_mem hgrown hlen (SortedMap.mem_insert.mpr (Or.inl rfl)) hle
  simp only [hlength]
  omega

/-- Placing a segment in a gap. -/
theorem place_keeps (hdisjoint : image.NoOverlap) {segment : List UInt8} (hlen : 1 ≤ segment.length)
    (hbelow : ∀ entry ∈ image.segments.entries, entry.1 ≤ addr → entry.1 + entry.2.length < addr)
    (hclear : ∀ entry ∈ image.segments.entries,
      ¬(addr < entry.1 ∧ entry.1 < addr + segment.length)) :
    NoOverlap ⟨image.segments.insert addr segment⟩ ∧
      (get ⟨image.segments.insert addr segment⟩ addr segment.length).isSome := by
  have hplaced : NoOverlap ⟨image.segments.insert addr segment⟩ := by
    apply noOverlap_insert hdisjoint
    · intro entry hentry hlt
      exact (hbelow entry hentry hlt.le).le
    · intro entry hentry hlt
      have := hclear entry hentry
      omega
  refine ⟨hplaced, ?_⟩
  exact get_isSome_of_mem hplaced hlen (SortedMap.mem_insert.mpr (Or.inl rfl)) le_rfl le_rfl

/-- What ends before an address, if the segment next below it does. -/
theorem NoOverlap.below (hdisjoint : image.NoOverlap)
    (hgap : ∀ found ∈ image.segments.floor addr, found.1 + found.2.length < addr) :
    ∀ entry ∈ image.segments.entries, entry.1 ≤ addr → entry.1 + entry.2.length < addr := by
  intro entry hentry hle
  cases hfloor : image.segments.floor addr with
  | none => exact absurd (SortedMap.floor_eq_none.mp hfloor entry hentry) (by omega)
  | some found =>
    have hfound := hgap found hfloor
    rcases lt_or_eq_of_le (SortedMap.le_floor hfloor hentry hle) with hlt | heq
    · have := hdisjoint entry hentry found (SortedMap.floor_mem hfloor).1 hlt
      omega
    · rwa [SortedMap.entries_inj hentry (SortedMap.floor_mem hfloor).1 heq]

/-- An allocation that fits leaves no overlap, keeps all there is and finds its range. -/
theorem allocate_keeps (hwf : image.WellFormed) (hdisjoint : image.NoOverlap) {fill : UInt8}
    (hvalid : (ImageOp.allocate addr len fill).Valid) (hfits : image.Fits (.allocate addr len fill)) :
    (image.allocate addr len fill).NoOverlap ∧
      ((image.allocate addr len fill).get addr len).isSome ∧
      ∀ entry ∈ image.segments.entries, ∃ more,
        (entry.1, entry.2 ++ more) ∈ (image.allocate addr len fill).segments.entries := by
  obtain ⟨hlen, hend⟩ := hvalid
  rcases allocate_cases hwf hlen hend fill with
    ⟨hsome, hsame⟩ | ⟨found, hfloor, hoffset, hshort, hroom, hgrow⟩ | ⟨hnone, hwhere, hinsert⟩
  · rw [hsame]
    refine ⟨hdisjoint, hsome, ?_⟩
    intro entry hentry
    exact ⟨[], by rwa [List.append_nil]⟩
  · have hlength : (found.2 ++ List.replicate (addr - found.1 + len - found.2.length) fill).length =
        addr - found.1 + len := by
      rw [List.length_append, List.length_replicate]
      omega
    obtain ⟨hgrown, hget⟩ := grow_keeps hdisjoint hlen hfloor _ hlength hroom
    rw [hgrow]
    refine ⟨hgrown, hget, extends_insert _ _ ?_⟩
    intro entry hentry hstart
    rw [SortedMap.entries_inj hentry (SortedMap.floor_mem hfloor).1 hstart]
  · have hclear : ∀ entry ∈ image.segments.entries, ¬(addr < entry.1 ∧ entry.1 < addr + len) := by
      refine hfits.resolve_left ?_
      rw [hnone]
      exact Bool.false_ne_true
    have hgap : ∀ found ∈ image.segments.floor addr, found.1 + found.2.length < addr :=
      hwhere.resolve_right fun ⟨entry, hentry, hinside⟩ ↦ hclear entry hentry hinside
    have hbelow := hdisjoint.below hgap
    have hlength : (List.replicate len fill).length = len := List.length_replicate ..
    obtain ⟨hplaced, hget⟩ := place_keeps hdisjoint (hlength.symm ▸ hlen) hbelow
      (hlength.symm ▸ hclear)
    rw [hlength] at hget
    rw [hinsert]
    refine ⟨hplaced, hget, extends_insert [] _ ?_⟩
    intro entry hentry hstart
    exact absurd (hbelow entry hentry hstart.le) (by omega)

/-- An allocation that does not fit leaves an overlap. -/
theorem allocate_overlaps (hwf : image.WellFormed) {fill : UInt8}
    (hvalid : (ImageOp.allocate addr len fill).Valid)
    (hfits : ¬image.Fits (.allocate addr len fill)) :
    ¬(image.allocate addr len fill).NoOverlap := by
  obtain ⟨hlen, hend⟩ := hvalid
  simp only [Fits, not_or, not_forall, not_not] at hfits
  obtain ⟨hnone, entry, hentry, hinside⟩ := hfits
  rcases allocate_cases hwf hlen hend fill with
    ⟨hsome, _⟩ | ⟨_, _, _, _, hroom, _⟩ | ⟨_, _, hinsert⟩
  · exact absurd hsome hnone
  · exact absurd (hroom entry hentry hinside.1) (by omega)
  · rw [hinsert]
    intro hdisjoint
    have hend := hdisjoint (addr, List.replicate len fill) (SortedMap.mem_insert.mpr (Or.inl rfl))
      entry (SortedMap.mem_insert.mpr (Or.inr ⟨hentry, hinside.1.ne'⟩)) hinside.1
    rw [List.length_replicate] at hend
    omega

/-! ## Runs -/

theorem keeps_iff_fits (hwf : image.WellFormed) (hdisjoint : image.NoOverlap) {op : ImageOp}
    (hvalid : op.Valid) : image.Keeps op ↔ image.Fits op := by
  cases op with
  | write addr data =>
    refine iff_of_true ⟨hdisjoint.write addr data, ?_, ?_⟩ trivial
    · rintro _ _ _ ⟨⟩
    · rintro _ _ _ ⟨⟩
  | allocate addr len fill =>
    constructor
    · intro hkeeps
      by_contra hfits
      exact allocate_overlaps hwf hvalid hfits hkeeps.noOverlap
    · intro hfits
      obtain ⟨hkept, hget, hextends⟩ := allocate_keeps hwf hdisjoint hvalid hfits
      refine ⟨hkept, ?_, ?_⟩
      · rintro _ _ _ ⟨⟩ where_ value
        exact byte_of_grown hdisjoint hkept hextends
      · rintro _ _ _ ⟨⟩
        exact hget

theorem run_concat (image : Image) (ops : List ImageOp) (op : ImageOp) :
    image.run (ops ++ [op]) = op.apply (image.run ops) := by
  rw [run, List.foldl_append]
  rfl

theorem WellFormed.run (hwf : image.WellFormed) {ops : List ImageOp} (hvalid : ∀ op ∈ ops, op.Valid) :
    (image.run ops).WellFormed := by
  induction ops using List.reverseRecOn with
  | nil => exact hwf
  | append_singleton ops op ih =>
    rw [run_concat]
    apply WellFormed.apply (ih fun other hother ↦ hvalid other (List.mem_append_left _ hother))
    exact hvalid op (List.mem_append_right _ (List.mem_singleton_self op))

/-- As long as every operation of a run fits, so far nothing overlaps. -/
theorem run_noOverlap (hwf : image.WellFormed) (hdisjoint : image.NoOverlap) {ops : List ImageOp}
    (hvalid : ∀ op ∈ ops, op.Valid)
    (hfits : ∀ before op after, ops = before ++ op :: after → (image.run before).Fits op) :
    (image.run ops).NoOverlap := by
  induction ops using List.reverseRecOn with
  | nil => exact hdisjoint
  | append_singleton ops op ih =>
    have hbefore : ∀ other ∈ ops, other.Valid := fun other hother ↦
      hvalid other (List.mem_append_left _ hother)
    have hrun := ih hbefore fun before other after hsplit ↦
      hfits before other (after ++ [op]) (by rw [hsplit, List.append_assoc, List.cons_append])
    rw [run_concat]
    exact ((keeps_iff_fits (hwf.run hbefore) hrun
      (hvalid op (List.mem_append_right _ (List.mem_singleton_self op)))).mpr
        (hfits ops op [] rfl)).noOverlap

theorem new_wellFormed : new.WellFormed where
  nonempty _ hentry := nomatch hentry
  bounded _ hentry := nomatch hentry

theorem new_noOverlap : new.NoOverlap := by
  intro a ha
  cases ha

theorem Sparse.noOverlap {ops before : List ImageOp} (hsparse : new.Sparse ops) {op : ImageOp}
    {after : List ImageOp} (hsplit : ops = before ++ op :: after) : (new.run before).NoOverlap := by
  rcases List.eq_nil_or_concat before with rfl | ⟨front, last, rfl⟩
  · exact new_noOverlap
  · rw [List.concat_eq_append] at hsplit ⊢
    rw [run_concat]
    exact (hsparse front last (op :: after) (by rw [hsplit, List.append_assoc]; rfl)).noOverlap

/-- A run keeps the image a sparse memory exactly if each of its allocations, when it is made, either
finds its range in one segment or has no segment start inside it. -/
theorem sparse_iff (ops : List ImageOp) (hvalid : ∀ op ∈ ops, op.Valid) :
    new.Sparse ops ↔
      ∀ before op after, ops = before ++ op :: after → (new.run before).Fits op := by
  have hparts : ∀ before op after, ops = before ++ op :: after →
      (new.run before).WellFormed ∧ op.Valid := by
    rintro before op after rfl
    constructor
    · exact new_wellFormed.run fun other hother ↦ hvalid other (List.mem_append_left _ hother)
    · exact hvalid op (by simp)
  constructor
  · intro hsparse before op after hsplit
    obtain ⟨hwf, hop⟩ := hparts before op after hsplit
    exact (keeps_iff_fits hwf (hsparse.noOverlap hsplit) hop).mp (hsparse before op after hsplit)
  · intro hfits before op after hsplit
    obtain ⟨hwf, hop⟩ := hparts before op after hsplit
    have hdisjoint : (new.run before).NoOverlap := by
      apply run_noOverlap new_wellFormed new_noOverlap
      · intro other hother
        exact hvalid other (by rw [hsplit]; exact List.mem_append_left _ hother)
      · rintro earlier other later rfl
        exact hfits earlier other (later ++ op :: after) (by rw [hsplit]; simp)
    exact (keeps_iff_fits hwf hdisjoint hop).mpr (hfits before op after hsplit)

theorem sparse_growing :
    new.Sparse [.allocate 0x100 32 0, .allocate 0x110 64 0xff, .write 0x120 [1, 2]] := by
  apply (sparse_iff _ (by simp [ImageOp.Valid, addressSpace])).mpr
  intro before op after hsplit
  rcases before with _ | ⟨a, _ | ⟨b, _ | ⟨c, before⟩⟩⟩
  · obtain ⟨rfl, _⟩ := List.cons.inj hsplit
    decide
  · obtain ⟨rfl, htail⟩ := List.cons.inj hsplit
    obtain ⟨rfl, _⟩ := List.cons.inj htail
    decide
  · simp only [List.cons_append, List.nil_append, List.cons.injEq] at hsplit
    rw [← hsplit.2.2.1]
    trivial
  · simp at hsplit

/-- Allocating over two segments replaces the first. -/
theorem allocate_replaces :
    ¬new.Sparse [.allocate 0x100 8 1, .allocate 0x110 8 2, .allocate 0x100 32 0] := by
  intro hsparse
  have hlast := hsparse [.allocate 0x100 8 1, .allocate 0x110 8 2] (.allocate 0x100 32 0) [] rfl
  have hbyte := hlast.readable 0x100 32 0 rfl 0x100 1 (by decide)
  revert hbyte
  decide

end Image

end Sdrmm.Cps
