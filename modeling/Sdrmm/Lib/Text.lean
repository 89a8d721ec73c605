import Mathlib.Data.List.TakeWhile
import Mathlib.Tactic

/-!
# Texts

Texts as lists of characters with the operations that parsers of words use: white space as Unicode has
it, words, padding, the bytes of UTF-8, and decimal numbers.
-/

namespace Sdrmm.Text

/-- The Unicode property White_Space. -/
def isWhitespace (c : Char) : Bool :=
  let code := c.toNat
  (9 ≤ code && code ≤ 13) || code == 0x20 || code == 0x85 || code == 0xa0 || code == 0x1680 ||
    (0x2000 ≤ code && code ≤ 0x200a) || code == 0x2028 || code == 0x2029 || code == 0x202f ||
    code == 0x205f || code == 0x3000

def trimStart (text : List Char) : List Char := text.dropWhile isWhitespace

def trimEnd (text : List Char) : List Char := (text.reverse.dropWhile isWhitespace).reverse

def trim (text : List Char) : List Char := trimEnd (trimStart text)

/-- The words between white space. -/
def splitWhitespace (text : List Char) : List (List Char) :=
  (text.splitOnP isWhitespace).filter (· ≠ [])

def bytes (text : List Char) : List UInt8 := text.flatMap String.utf8EncodeChar

/-- The text of some bytes below 128. -/
def ofAscii (codes : List UInt8) : List Char := codes.map fun code ↦ Char.ofNat code.toNat

/-- The texts before and after the first separator. -/
def splitOnce (separator : Char) (text : List Char) : Option (List Char × List Char) :=
  match text.dropWhile (· ≠ separator) with
  | [] => none
  | _ :: after => some (text.takeWhile (· ≠ separator), after)

/-- The texts before and after so many bytes, if they end between two characters. -/
def splitAt : List Char → ℕ → Option (List Char × List Char)
  | text, 0 => some ([], text)
  | [], _ + 1 => none
  | c :: text, len + 1 =>
      if c.utf8Size ≤ len + 1 then
        (splitAt text (len + 1 - c.utf8Size)).map fun (before, after) ↦ (c :: before, after)
      else none

def stripPrefix (start text : List Char) : Option (List Char) :=
  if start.isPrefixOf text then some (text.drop start.length) else none

def stripSuffix (ending text : List Char) : Option (List Char) :=
  if ending.isSuffixOf text then some (text.take (text.length - ending.length)) else none

def isAsciiDigit (code : UInt8) : Bool := 48 ≤ code && code ≤ 57

def isAsciiUppercase (code : UInt8) : Bool := 65 ≤ code && code ≤ 90

/-- The decimal digits, with a sign in front of a negative number. -/
def decimal (value : ℤ) : List Char :=
  if value < 0 then '-' :: Nat.toDigits 10 value.natAbs else Nat.toDigits 10 value.natAbs

/-- A decimal number with leading zeros. -/
def padded (width value : ℕ) : List Char := List.leftpad width '0' (Nat.toDigits 10 value)

/-- A sign, even of a positive number, and two digits at least. -/
def signed (value : ℤ) : List Char := (if value < 0 then '-' else '+') :: padded 2 value.natAbs

/-- A 32-bit number in decimal digits, of which there is at least one, with a sign or without. -/
def parseI32 (text : List Char) : Option ℤ :=
  let (negative, digits) : Bool × List Char :=
    match text with
    | '-' :: digits => (true, digits)
    | '+' :: digits => (false, digits)
    | digits => (false, digits)
  if digits = [] ∨ digits.any fun c ↦ !c.isDigit then none
  else
    let value : ℤ := if negative then -(Nat.ofDigitChars 10 digits 0) else Nat.ofDigitChars 10 digits 0
    if -2 ^ 31 ≤ value ∧ value < 2 ^ 31 then some value else none

variable {text word : List Char} {codes : List UInt8}

/-! ## Starts and ends -/

theorem stripPrefix_eq_some {start rest : List Char} :
    stripPrefix start text = some rest ↔ text = start ++ rest := by
  rw [stripPrefix]
  constructor
  · intro h
    split_ifs at h with hstart
    obtain ⟨more, rfl⟩ := List.isPrefixOf_iff_prefix.mp hstart
    rw [List.drop_left] at h
    rw [Option.some.inj h]
  · rintro rfl
    rw [if_pos (List.isPrefixOf_iff_prefix.mpr (List.prefix_append start rest)), List.drop_left]

theorem stripSuffix_eq_some {ending rest : List Char} :
    stripSuffix ending text = some rest ↔ text = rest ++ ending := by
  rw [stripSuffix]
  constructor
  · intro h
    split_ifs at h with hending
    obtain ⟨more, rfl⟩ := List.isSuffixOf_iff_suffix.mp hending
    rw [List.length_append, Nat.add_sub_cancel, List.take_left] at h
    rw [Option.some.inj h]
  · rintro rfl
    rw [if_pos (List.isSuffixOf_iff_suffix.mpr (List.suffix_append rest ending)), List.length_append,
      Nat.add_sub_cancel, List.take_left]

/-! ## White space around -/

theorem trimStart_cons (c : Char) (text : List Char) :
    trimStart (c :: text) = if isWhitespace c then trimStart text else c :: text :=
  List.dropWhile_cons

theorem trimEnd_append (text : List Char) (c : Char) :
    trimEnd (text ++ [c]) = if isWhitespace c then trimEnd text else text ++ [c] := by
  rw [trimEnd, List.reverse_append, List.reverse_singleton, List.singleton_append,
    List.dropWhile_cons]
  split_ifs
  · rfl
  · rw [List.reverse_cons, List.reverse_reverse]

/-- A character that is no white space stays. -/
theorem mem_dropWhile {p : Char → Bool} {c : Char} (hmem : c ∈ text) (hc : p c = false) :
    c ∈ text.dropWhile p := by
  induction text with
  | nil => exact hmem
  | cons first text ih =>
    rw [List.dropWhile_cons]
    split_ifs with hfirst
    · apply ih
      apply List.mem_of_ne_of_mem _ hmem
      rintro rfl
      rw [hfirst] at hc
      exact Bool.noConfusion hc
    · exact hmem

theorem mem_trim {c : Char} (hmem : c ∈ text) (hc : isWhitespace c = false) : c ∈ trim text :=
  List.mem_reverse.mpr (mem_dropWhile (List.mem_reverse.mpr (mem_dropWhile hmem hc)) hc)

theorem trim_eq_nil_of_forall (htext : ∀ c ∈ text, isWhitespace c = true) : trim text = [] := by
  rw [trim, trimStart, List.dropWhile_eq_nil_iff.mpr htext]
  rfl

theorem trimStart_word (hword : ∀ c ∈ word, isWhitespace c = false) : trimStart word = word := by
  cases word with
  | nil => rfl
  | cons c word =>
    rw [trimStart_cons, hword c List.mem_cons_self]
    rfl

theorem trim_word (hword : ∀ c ∈ word, isWhitespace c = false) : trim word = word := by
  have hreverse : trimStart word.reverse = word.reverse :=
    trimStart_word fun c hc ↦ hword c (List.mem_reverse.mp hc)
  rw [trim, trimStart_word hword, trimEnd, ← trimStart, hreverse, List.reverse_reverse]

theorem trimStart_spaces (count : ℕ) (text : List Char) :
    trimStart (List.replicate count ' ' ++ text) = trimStart text := by
  induction count with
  | zero => rfl
  | succ count ih =>
    rw [List.replicate_succ, List.cons_append, trimStart_cons]
    exact (if_pos rfl).trans ih

/-! ## Words -/

theorem splitWhitespace_word (hword : ∀ c ∈ word, isWhitespace c = false) (hne : word ≠ []) :
    splitWhitespace word = [word] := by
  rw [splitWhitespace, List.splitOnP_eq_singleton hword, List.filter_cons, decide_eq_true hne]
  rfl

theorem splitWhitespace_append (hword : ∀ c ∈ word, isWhitespace c = false) (hne : word ≠ []) :
    splitWhitespace (word ++ ' ' :: text) = word :: splitWhitespace text := by
  rw [splitWhitespace, List.splitOnP_append_cons_of_forall_mem hword ' ' rfl, List.filter_cons,
    decide_eq_true hne]
  rfl

theorem not_separator_of_mem_splitOnP {p : Char → Bool} (hword : word ∈ text.splitOnP p) :
    ∀ c ∈ word, p c = false := by
  induction text generalizing word with
  | nil =>
    rw [List.splitOnP_nil, List.mem_singleton] at hword
    rw [hword]
    exact List.forall_mem_nil _
  | cons first text ih =>
    rw [List.splitOnP_cons_eq_if_modifyHead] at hword
    by_cases hfirst : p first = true
    · rw [if_pos hfirst] at hword
      rcases List.mem_cons.mp hword with rfl | hrest
      · exact List.forall_mem_nil _
      · exact ih hrest
    · rw [if_neg hfirst] at hword
      obtain ⟨head, tail, hsplit⟩ := List.exists_cons_of_ne_nil (List.splitOnP_ne_nil p text)
      rw [hsplit, List.modifyHead_cons] at hword
      rw [hsplit] at ih
      rcases List.mem_cons.mp hword with rfl | hrest
      · rw [List.forall_mem_cons]
        exact ⟨Bool.eq_false_of_not_eq_true hfirst, ih List.mem_cons_self⟩
      · exact ih (List.mem_cons_of_mem head hrest)

theorem isWhitespace_of_mem_splitWhitespace (hword : word ∈ splitWhitespace text) :
    word ≠ [] ∧ ∀ c ∈ word, isWhitespace c = false := by
  rw [splitWhitespace, List.mem_filter] at hword
  exact ⟨of_decide_eq_true hword.2, not_separator_of_mem_splitOnP hword.1⟩

theorem splitOnce_append {separator : Char} {before after : List Char} (hbefore : separator ∉ before) :
    splitOnce separator (before ++ separator :: after) = some (before, after) := by
  have hall : ∀ c ∈ before, decide (c ≠ separator) = true := by
    intro c hc
    rw [decide_eq_true_eq]
    rintro rfl
    exact hbefore hc
  rw [splitOnce, List.dropWhile_append_of_pos hall, List.takeWhile_append_of_pos hall,
    List.dropWhile_cons_of_neg (by simp), List.takeWhile_cons_of_neg (by simp), List.append_nil]

/-! ## Bytes -/

theorem bytes_append (first second : List Char) : bytes (first ++ second) = bytes first ++ bytes second :=
  List.flatMap_append

theorem utf8_of_lt {c : Char} (hc : c.toNat < 128) : String.utf8EncodeChar c = [c.val.toUInt8] := by
  apply String.utf8EncodeChar_eq_singleton
  rw [Char.utf8Size_eq_one_iff, UInt32.le_iff_toNat_le]
  exact Nat.le_of_lt_succ hc

/-- The bytes of a character outside ASCII are all above. -/
theorem le_of_mem_utf8 {c : Char} (hc : 128 ≤ c.toNat) {code : UInt8}
    (hcode : code ∈ String.utf8EncodeChar c) : 128 ≤ code.toNat := by
  rw [String.utf8EncodeChar] at hcode
  have hval : c.val.toNat = c.toNat := rfl
  split_ifs at hcode with h1 h2 h3
  all_goals simp only [List.mem_cons, List.not_mem_nil, or_false] at hcode
  · omega
  · rcases hcode with rfl | rfl
    all_goals
      rw [UInt8.toNat_ofNat']
      omega
  · rcases hcode with rfl | rfl | rfl
    all_goals
      rw [UInt8.toNat_ofNat']
      omega
  · rcases hcode with rfl | rfl | rfl | rfl
    all_goals
      rw [UInt8.toNat_ofNat']
      omega

theorem toNat_ofNat {n : ℕ} (hn : n < 256) : (Char.ofNat n).toNat = n := by
  rw [Char.ofNat, dif_pos (Or.inl (by omega))]
  rfl

theorem splitAt_ascii (htext : ∀ c ∈ text, c.toNat < 128) {count : ℕ} (hcount : count ≤ text.length) :
    splitAt text count = some (text.take count, text.drop count) := by
  induction count generalizing text with
  | zero => rw [splitAt, List.take_zero, List.drop_zero]
  | succ count ih =>
    cases text with
    | nil => exact absurd hcount (Nat.not_succ_le_zero count)
    | cons c text =>
      rw [List.forall_mem_cons] at htext
      have hsize : c.utf8Size = 1 := by
        rw [← String.length_utf8EncodeChar, utf8_of_lt htext.1]
        rfl
      rw [splitAt, hsize, if_pos (Nat.le_add_left 1 count), Nat.add_sub_cancel,
        ih htext.2 (Nat.le_of_succ_le_succ hcount), Option.map_some, List.take_succ_cons,
        List.drop_succ_cons]

theorem bytes_ofAscii (hcodes : ∀ code ∈ codes, code.toNat < 128) : bytes (ofAscii codes) = codes := by
  induction codes with
  | nil => rfl
  | cons code codes ih =>
    rw [List.forall_mem_cons] at hcodes
    have hchar : (Char.ofNat code.toNat).toNat = code.toNat := toNat_ofNat (UInt8.toNat_lt code)
    have hsingle : String.utf8EncodeChar (Char.ofNat code.toNat) = [code] := by
      rw [utf8_of_lt (by rw [hchar]; exact hcodes.1)]
      congr 1
      apply UInt8.toNat_inj.mp
      rw [UInt32.toNat_toUInt8]
      exact (congrArg (· % 256) hchar).trans (Nat.mod_eq_of_lt (by omega))
    have hrest := ih hcodes.2
    rw [bytes, ofAscii] at hrest ⊢
    rw [List.map_cons, List.flatMap_cons, hsingle, hrest]
    rfl

theorem ofAscii_bytes (hbytes : ∀ code ∈ bytes text, code.toNat < 128) :
    ofAscii (bytes text) = text := by
  induction text with
  | nil => rfl
  | cons c text ih =>
    have hsplit : bytes (c :: text) = String.utf8EncodeChar c ++ bytes text := List.flatMap_cons
    rw [hsplit, List.forall_mem_append] at hbytes
    have hascii : c.toNat < 128 := by
      by_contra hle
      obtain ⟨code, hcode⟩ := List.exists_mem_of_ne_nil _ (String.utf8EncodeChar_ne_nil (c := c))
      have hbelow := hbytes.1 code hcode
      have habove := le_of_mem_utf8 (not_lt.mp hle) hcode
      omega
    have hcode : c.val.toUInt8.toNat = c.toNat := by
      rw [UInt32.toNat_toUInt8]
      exact Nat.mod_eq_of_lt (by change c.toNat < 256; omega)
    rw [hsplit, utf8_of_lt hascii, List.singleton_append]
    calc ofAscii (c.val.toUInt8 :: bytes text)
        = Char.ofNat c.val.toUInt8.toNat :: ofAscii (bytes text) := rfl
      _ = c :: text := by rw [hcode, Char.ofNat_toNat, ih hbytes.2]

end Sdrmm.Text
