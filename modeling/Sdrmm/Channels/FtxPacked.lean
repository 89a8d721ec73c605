import Sdrmm.Channels.FtxPack

/-!
# Messages that are packed

`packed_decodes_iff` is which texts come out as messages that `unpack` takes: all but those that say more
to everyone than a grid, as `CQ K1ABC 73`, and those with a call that `call58` does not take for one, as
`CQ ABC`.
-/

namespace Sdrmm.Ftx

open Sdrmm.Text

/-! ## What is promised -/

/-- The result of unpacking with a book, and the book then. -/
def Unpack.on {α : Type} (x : Unpack α) (book : CallBook) : Option α × CallBook := x.run.run book

/-- A text is not packed to a message that does not unpack. -/
def PackedDecodes (text : List Char) : Prop :=
  ∀ bits, pack text = some bits → ∀ book, ((unpack bits).on book).1.isSome

/-- The words after the second call. -/
def standardExtra : List (List Char) → List (List Char)
  | first :: modifier :: rest =>
      if first = "CQ".toList ∧ (cqModifier modifier).isSome ∧ rest ≠ [] then rest.drop 1 else rest
  | _ => []

/-- Nothing or a grid. -/
def SaysGrid (extra : List (List Char)) : Prop := extra = [] ∨ ∃ grid, extra = [grid] ∧ isGrid4 grid

/-- A standard message to everyone has no more than a grid, and the call of one that is not standard is
well formed. -/
structure Decodable (words : List (List Char)) : Prop where
  standard : (packStandard words).isSome → (∀ first ∈ words.head?, isToken first) →
    SaysGrid (standardExtra words)
  nonstandard : packStandard words = none → (packNonstandard words).isSome →
    ∀ parts ∈ nonstandardParts words, wellFormed parts.plain

/-! ## Running -/

section On

variable {α β : Type} {x : Unpack α} {f : α → Unpack β} {book next : CallBook} {a : α}

theorem on_bind (x : Unpack α) (f : α → Unpack β) (book : CallBook) :
    (x >>= f).on book = match x.on book with
      | (some a, next) => (f a).on next
      | (none, next) => (none, next) := by
  simp only [Unpack.on, OptionT.run_bind, StateT.run_bind, Option.elimM]
  rcases x.run.run book with ⟨_ | a, next⟩
  · rfl
  · rfl

theorem on_bind_some (hx : x.on book = (some a, next)) : (x >>= f).on book = (f a).on next := by
  rw [on_bind, hx]

theorem on_orRefuse (value : Option α) (book : CallBook) :
    (orRefuse value).on book = (value, book) := rfl

theorem on_lookup (f : CallBook → List Char) (book : CallBook) :
    (lookup f).on book = (some (f book), book) := rfl

theorem on_remember (call : List Char) (book : CallBook) :
    (remember call).on book = (some (), book.remember call) := rfl

end On

/-! ## Bits -/

theorem Writer.put_eq (writer : Writer) {value count : ℕ} (hvalue : value < 2 ^ count) :
    writer.put value count = ⟨writer.bits * 2 ^ count + value, writer.used + count⟩ := by
  rw [Writer.put, Nat.mod_eq_of_lt hvalue, Nat.mul_comm, Nat.two_pow_add_eq_or_of_lt hvalue]

/-- Taking a field from what is left. -/
theorem take_eq {bits left count value : ℕ} (hvalue : bits / 2 ^ left % 2 ^ count = value) :
    Reader.take ⟨bits, left + count⟩ count = (value, ⟨bits, left⟩) := by
  rw [Reader.take]
  simp only [Nat.add_sub_cancel, hvalue]

theorem hash22_lt {call : List Char} {n22 : ℕ} (hhash : hash22 call = some n22) : n22 < 2 ^ 22 := by
  rw [hash22] at hhash
  split_ifs at hhash
  obtain ⟨n, _, rfl⟩ := Option.map_eq_some_iff.mp hhash
  have hlt := Nat.mod_lt (hashPrime * n) (Nat.two_pow_pos 64)
  omega

/-! ## Tokens -/

section Token

variable {word call : List Char} {book : CallBook}

/-- A word without spaces that is no token, or a call in brackets. -/
structure Plain (call : List Char) : Prop where
  noToken : isToken call = false
  noSpace : call.head? = some '<' ∨ ' ' ∉ call

theorem isToken_iff : isToken call = true ↔ call = "CQ".toList ∨ call = "QRZ".toList ∨
    call = "DE".toList ∨ "CQ ".toList <+: call := by
  rw [isToken, Bool.or_eq_true, Bool.or_eq_true, Bool.or_eq_true, decide_eq_true_eq, decide_eq_true_eq,
    decide_eq_true_eq, List.isPrefixOf_iff_prefix, or_assoc, or_assoc]

/-- A token is one of three words, or has a space. -/
theorem isToken_cases (htoken : isToken call = true) : call = "CQ".toList ∨ call = "QRZ".toList ∨
    call = "DE".toList ∨ ' ' ∈ call := by
  rcases isToken_iff.mp htoken with h | h | h | h
  · exact Or.inl h
  · exact Or.inr (Or.inl h)
  · exact Or.inr (Or.inr (Or.inl h))
  · exact Or.inr (Or.inr (Or.inr (h.subset (by decide))))

theorem plain_bracketed (found : Option (List Char)) : Plain (CallBook.bracketed found) := by
  have hhead : (CallBook.bracketed found).head? = some '<' := by cases found <;> rfl
  refine ⟨?_, Or.inl hhead⟩
  by_contra htoken
  rcases isToken_iff.mp (Bool.eq_true_of_not_eq_false htoken) with h | h | h | ⟨rest, h⟩
  · rw [h] at hhead
    exact absurd hhead (by decide)
  · rw [h] at hhead
    exact absurd hhead (by decide)
  · rw [h] at hhead
    exact absurd hhead (by decide)
  · rw [← h] at hhead
    exact absurd hhead (by simp)

/-- A suffix makes no token of a call. -/
theorem on_withSuffix (hplain : Plain call) (flagged : Bool) {suffix : List Char}
    (hsuffix : suffix = "/R".toList ∨ suffix = "/P".toList) (book : CallBook) :
    ∃ result next, (withSuffix call flagged suffix).on book = (some result, next) ∧
      isToken result = false := by
  rw [withSuffix]
  split_ifs with hkeep
  · exact ⟨call, book, rfl, hplain.noToken⟩
  · refine ⟨call ++ suffix, book.remember (call ++ suffix), rfl, ?_⟩
    have hspace : ' ' ∉ call := hplain.noSpace.resolve_left fun h ↦ hkeep (Or.inr (Or.inl h))
    by_contra htoken
    have hslash : '/' ∈ call ++ suffix := by
      rcases hsuffix with rfl | rfl <;> simp
    rcases isToken_cases (Bool.eq_true_of_not_eq_false htoken) with h | h | h | h
    · rw [h] at hslash
      exact absurd hslash (by decide)
    · rw [h] at hslash
      exact absurd hslash (by decide)
    · rw [h] at hslash
      exact absurd hslash (by decide)
    · rcases List.mem_append.mp h with hcall | hend
      · exact hspace hcall
      · rcases hsuffix with rfl | rfl
        · exact absurd hend (by decide)
        · exact absurd hend (by decide)

theorem on_withSuffix_token (htoken : isToken call = true) (flagged : Bool) (suffix : List Char)
    (book : CallBook) : (withSuffix call flagged suffix).on book = (some call, book) := by
  rw [withSuffix, if_pos (Or.inr (Or.inr htoken))]
  rfl

end Token

/-! ## Calls -/

section Call

variable {word : List Char} {value : ℕ}

theorem lt_of_standardCall {value : ℕ} {call : List Char} (hcall : standardCall value = some call) :
    value < 262177560 := by
  have hrest : (Alphabet.spell [a36, digits, a27, a27, a27] value).2 = value / 7085880 :=
    Alphabet.spell_rest [a36, digits, a27, a27, a27] value
  rw [standardCall] at hcall
  obtain ⟨first, hfirst, _⟩ := Option.bind_eq_some_iff.mp hcall
  have hlt : (Alphabet.spell [a36, digits, a27, a27, a27] value).2 < a37.letters.length :=
    (List.getElem?_eq_some_iff.mp hfirst).1
  have hlength : a37.letters.length = 37 := by decide
  rw [hrest, hlength] at hlt
  omega

/-- A call that is packed is the one that its number stands for. -/
theorem standardCall_of_packBasecall {original : List Char} (hpack : packBasecall original = some value) :
    standardCall value = some original := by
  rw [packBasecall] at hpack
  obtain ⟨call, _, hpack⟩ := Option.bind_eq_some_iff.mp hpack
  obtain ⟨aligned, _, hpack⟩ := Option.bind_eq_some_iff.mp hpack
  split at hpack
  · obtain ⟨i0, _, hpack⟩ := Option.bind_eq_some_iff.mp hpack
    obtain ⟨i1, _, hpack⟩ := Option.bind_eq_some_iff.mp hpack
    obtain ⟨i2, _, hpack⟩ := Option.bind_eq_some_iff.mp hpack
    obtain ⟨number, _, hpack⟩ := Option.bind_eq_some_iff.mp hpack
    split_ifs at hpack with hsame
    rw [← Option.some.inj hpack]
    exact hsame
  · exact nomatch hpack

/-- Of a word only the three short tokens are tokens. -/
theorem pack28Token_word (hword : ' ' ∉ word) :
    pack28Token word = if word = "DE".toList then some 0 else if word = "QRZ".toList then some 1
      else if word = "CQ".toList then some 2 else none := by
  have hnone : stripPrefix "CQ ".toList word = none := by
    by_contra hsome
    obtain ⟨rest, hrest⟩ := Option.ne_none_iff_exists'.mp hsome
    rw [stripPrefix_eq_some] at hrest
    exact hword (by rw [hrest]; exact List.mem_append_left rest (by decide))
  rw [pack28Token, hnone]
  rfl

theorem isToken_word (hword : ' ' ∉ word) : isToken word = (pack28Token word).isSome := by
  rw [pack28Token_word hword]
  by_cases htoken : isToken word = true
  · rw [htoken]
    rcases isToken_cases htoken with rfl | rfl | rfl | h
    · rfl
    · rfl
    · rfl
    · exact absurd h hword
  · rw [Bool.eq_false_of_not_eq_true htoken]
    have hne (token : List Char) (h : isToken token = true) : word ≠ token := by
      rintro rfl
      exact htoken h
    rw [if_neg (hne _ rfl), if_neg (hne _ rfl), if_neg (hne _ rfl)]
    rfl

/-- What a packed call or token unpacks to. -/
theorem pack28_token (hword : ' ' ∉ word) (htoken : isToken word = true)
    (hpack : pack28 word = some value) : value < 2 ^ 28 ∧ ∃ token, isToken token = true ∧
      ∀ book, (call28 value).on book = (some token, book) := by
  rw [isToken_word hword] at htoken
  obtain ⟨token, htoken⟩ := Option.isSome_iff_exists.mp htoken
  rw [pack28, htoken] at hpack
  obtain rfl := Option.some.inj hpack
  rw [pack28Token_word hword] at htoken
  split_ifs at htoken
  all_goals
    obtain rfl := Option.some.inj htoken
    refine ⟨by decide, ?_⟩
  · exact ⟨"DE".toList, rfl, fun book ↦ rfl⟩
  · exact ⟨"QRZ".toList, rfl, fun book ↦ rfl⟩
  · exact ⟨"CQ".toList, rfl, fun book ↦ rfl⟩

theorem on_call28_hash {n22 : ℕ} (hn22 : n22 < max22) (book : CallBook) :
    (call28 (ntokens + n22)).on book = (some (book.lookup22 n22), book) := by
  have hrest : ntokens + n22 - ntokens = n22 := Nat.add_sub_cancel_left ntokens n22
  have hlarge : cqLettersEnd < ntokens := by decide
  have hmore : 1002 < cqLettersEnd := by decide
  rw [call28, if_neg (by omega), if_neg (by omega), if_neg (by omega), if_neg (by omega),
    if_neg (by omega), if_neg (by omega), hrest, if_pos hn22]
  rfl

theorem on_call28_call {number : ℕ} {call : List Char} (hcall : standardCall number = some call)
    (book : CallBook) :
    (call28 (ntokens + max22 + number)).on book = (some call, book.remember call) := by
  have hrest : ntokens + max22 + number - ntokens = max22 + number := by omega
  have hlarge : cqLettersEnd < ntokens := by decide
  have hmore : 1002 < cqLettersEnd := by decide
  rw [call28, if_neg (by omega), if_neg (by omega), if_neg (by omega), if_neg (by omega),
    if_neg (by omega), if_neg (by omega), hrest, if_neg (by omega), Nat.add_sub_cancel_left, hcall]
  rfl

theorem base_noSpace (hword : ' ' ∉ word) :
    ' ' ∉ ((stripSuffix "/R".toList word).or (stripSuffix "/P".toList word)).getD word := by
  have hpart (ending : List Char) (rest : List Char) (h : stripSuffix ending word = some rest) :
      ' ' ∉ rest := by
    rw [stripSuffix_eq_some] at h
    intro hmem
    exact hword (by rw [h]; exact List.mem_append_left ending hmem)
  cases hfirst : stripSuffix "/R".toList word with
  | some rest => exact hpart _ rest hfirst
  | none =>
    cases hsecond : stripSuffix "/P".toList word with
    | some rest => exact hpart _ rest hsecond
    | none => exact hword

theorem plain_of_packBasecall {base : List Char} (hbase : ' ' ∉ base)
    (hpack : packBasecall base = some value) : Plain base := by
  refine ⟨?_, Or.inr hbase⟩
  by_contra htoken
  have hrefused : ∀ token ∈ ["CQ".toList, "QRZ".toList, "DE".toList], packBasecall token = none := by
    decide
  have hnot : base ∉ ["CQ".toList, "QRZ".toList, "DE".toList] := by
    intro hmem
    exact Option.some_ne_none value (hpack.symm.trans (hrefused base hmem))
  rcases isToken_cases (Bool.eq_true_of_not_eq_false htoken) with rfl | rfl | rfl | h
  · exact hnot (by decide)
  · exact hnot (by decide)
  · exact hnot (by decide)
  · exact hbase h

theorem pack28_plain (hword : ' ' ∉ word) (htoken : isToken word = false)
    (hpack : pack28 word = some value) : value < 2 ^ 28 ∧
      ∀ book, ∃ call next, (call28 value).on book = (some call, next) ∧ Plain call := by
  have hnone : pack28Token word = none := by
    rw [isToken_word hword] at htoken
    exact Option.isNone_iff_eq_none.mp (by rw [← Option.not_isSome, htoken]; rfl)
  rw [pack28, hnone] at hpack
  simp only [] at hpack
  split at hpack
  · obtain ⟨n22, hhash, rfl⟩ := Option.map_eq_some_iff.mp hpack
    have hn22 := hash22_lt hhash
    refine ⟨?_, ?_⟩
    · rw [ntokens]
      omega
    · intro book
      exact ⟨book.lookup22 n22, book, on_call28_hash hn22 book, plain_bracketed _⟩
  · obtain ⟨number, hbase, rfl⟩ := Option.map_eq_some_iff.mp hpack
    have hcall := standardCall_of_packBasecall hbase
    have hnumber := lt_of_standardCall hcall
    refine ⟨?_, ?_⟩
    · rw [ntokens, max22]
      omega
    · intro book
      exact ⟨_, _, on_call28_call hcall book, plain_of_packBasecall (base_noSpace hword) hbase⟩

end Call

/-! ## The words after CQ -/

section Modifier

variable {modifier : List Char} {value : ℕ}

theorem index_uppercase {code : UInt8} (hcode : isAsciiUppercase code = true) :
    a27.index code = some (code.toNat - 65 + 1) ∧ code.toNat < 128 ∧
      isWhitespace (Char.ofNat code.toNat) = false := by
  have hall : ∀ n < 26, a27.index (UInt8.ofNat (65 + n)) = some (n + 1) ∧
      isWhitespace (Char.ofNat (65 + n)) = false := by decide
  rw [isAsciiUppercase, Bool.and_eq_true, decide_eq_true_eq, decide_eq_true_eq, UInt8.le_iff_toNat_le,
    UInt8.le_iff_toNat_le] at hcode
  have hlow : 65 ≤ code.toNat := hcode.1
  have hhigh : code.toNat ≤ 90 := hcode.2
  have hspec := hall (code.toNat - 65) (by omega)
  rw [Nat.add_sub_cancel' hlow, UInt8.ofNat_toNat] at hspec
  exact ⟨hspec.1, by omega, hspec.2⟩

theorem read_uppercase {codes : List UInt8} (hcodes : ∀ code ∈ codes, isAsciiUppercase code = true)
    (high : ℕ) : Alphabet.read (List.replicate codes.length a27) codes high =
      some (codes.foldl (fun acc code ↦ acc * 27 + (code.toNat - 65 + 1)) high) := by
  have hsize : a27.size = 27 := by decide
  induction codes generalizing high with
  | nil => rfl
  | cons code codes ih =>
    rw [List.forall_mem_cons] at hcodes
    rw [List.length_cons, List.replicate_succ, Alphabet.read, (index_uppercase hcodes.1).1,
      Option.bind_some, hsize, ih hcodes.2, List.foldl_cons]

theorem cqLetters_of_uppercase {codes : List UInt8} (hlength : 1 ≤ codes.length ∧ codes.length ≤ 4)
    (hcodes : ∀ code ∈ codes, isAsciiUppercase code = true) :
    let number := codes.foldl (fun acc code ↦ acc * 27 + (code.toNat - 65 + 1)) 0
    number < 27 ^ 4 ∧ cqLetters number = some ("CQ ".toList ++ ofAscii codes) := by
  intro number
  have hread : Alphabet.read (List.replicate 4 a27) (List.leftpad 4 32 codes) 0 = some number := by
    have hspace : a27.index 32 = some 0 := by decide
    have hsplit : List.replicate 4 a27 =
        List.replicate (4 - codes.length) a27 ++ List.replicate codes.length a27 := by
      rw [← List.replicate_add, Nat.sub_add_cancel hlength.2]
    rw [List.leftpad, hsplit, Alphabet.read_zeros hspace, read_uppercase hcodes]
  have hspell := Alphabet.spell_of_read hread
  have hascii : ∀ code ∈ codes, code.toNat < 128 :=
    fun code hcode ↦ (index_uppercase (hcodes code hcode)).2.1
  have hpad : ofAscii (List.leftpad 4 32 codes) =
      List.replicate (4 - codes.length) ' ' ++ ofAscii codes := by
    rw [List.leftpad, ofAscii, List.map_append, List.map_replicate]
    rfl
  have hword : ∀ c ∈ ofAscii codes, isWhitespace c = false := by
    intro c hc
    obtain ⟨code, hcode, rfl⟩ := List.mem_map.mp hc
    exact (index_uppercase (hcodes code hcode)).2.2
  refine ⟨Alphabet.read_lt hread, ?_⟩
  rw [cqLetters, hspell]
  simp only []
  rw [hpad, trimStart_spaces, trimStart_word hword, bytes_ofAscii hascii,
    if_pos (List.all_eq_true.mpr hcodes)]

theorem cqModifier_token (hmodifier : cqModifier modifier = some value) : value < 2 ^ 28 ∧
    ∃ token, isToken token = true ∧ ∀ book, (call28 value).on book = (some token, book) := by
  have htoken (text : List Char) : isToken ("CQ ".toList ++ text) = true :=
    isToken_iff.mpr (Or.inr (Or.inr (Or.inr (List.prefix_append _ text))))
  rw [cqModifier] at hmodifier
  split_ifs at hmodifier with hdigits hletters
  · obtain rfl := Option.some.inj hmodifier
    have hnumber : Nat.ofDigitChars 10 modifier 0 ≤ 999 := by
      have hspec : ∀ code ∈ bytes modifier, 48 ≤ code.toNat ∧ code.toNat ≤ 57 := by
        intro code hcode
        have hdigit := List.all_eq_true.mp hdigits.2 code hcode
        rw [isAsciiDigit, Bool.and_eq_true, decide_eq_true_eq, decide_eq_true_eq,
          UInt8.le_iff_toNat_le, UInt8.le_iff_toNat_le] at hdigit
        exact hdigit
      have hword := ofAscii_bytes fun code hcode ↦ Nat.lt_of_le_of_lt (hspec code hcode).2 (by decide)
      rw [← hword]
      obtain ⟨b0, b1, b2, hcodes⟩ := List.length_eq_three.mp hdigits.1
      rw [hcodes] at hspec ⊢
      simp only [List.forall_mem_cons] at hspec
      obtain ⟨h0, h1, h2, _⟩ := hspec
      have hchar (code : UInt8) : (Char.ofNat code.toNat).toNat = code.toNat :=
        toNat_ofNat (UInt8.toNat_lt code)
      have hzero : '0'.toNat = 48 := rfl
      simp only [ofAscii, List.map_cons, List.map_nil, Nat.ofDigitChars_cons, Nat.ofDigitChars_nil,
        hchar, hzero]
      omega
    refine ⟨by omega, _, htoken (padded 3 (Nat.ofDigitChars 10 modifier 0)), ?_⟩
    intro book
    rw [call28, if_neg (by omega), if_neg (by omega), if_neg (by omega), if_pos (by omega),
      Nat.add_sub_cancel_left]
    rfl
  · obtain rfl := Option.some.inj hmodifier
    obtain ⟨hlt, hsome⟩ := cqLetters_of_uppercase hletters.1 (List.all_eq_true.mp hletters.2)
    have hend : cqLettersEnd = 1003 + 27 ^ 4 := rfl
    refine ⟨by omega, _, htoken (ofAscii (bytes modifier)), ?_⟩
    intro book
    rw [call28, if_neg (by omega), if_neg (by omega), if_neg (by omega), if_neg (by omega),
      if_pos (by omega), Nat.add_sub_cancel_left, hsome]
    rfl

end Modifier

/-! ## What follows the calls -/

section Extra

variable {word : List Char} {extra : List (List Char)} {roger : Bool} {g15 : ℕ}

theorem isGrid4_iff : isGrid4 word = true ↔ ∃ b0 b1 b2 b3, bytes word = [b0, b1, b2, b3] ∧
    (65 ≤ b0.toNat ∧ b0.toNat ≤ 82) ∧ (65 ≤ b1.toNat ∧ b1.toNat ≤ 82) ∧
      (48 ≤ b2.toNat ∧ b2.toNat ≤ 57) ∧ 48 ≤ b3.toNat ∧ b3.toNat ≤ 57 := by
  constructor
  · intro hgrid
    rw [isGrid4] at hgrid
    split at hgrid
    · rename_i b0 b1 b2 b3 hbytes
      simp only [isAsciiDigit, Bool.and_eq_true, decide_eq_true_eq, UInt8.le_iff_toNat_le,
        and_assoc] at hgrid
      obtain ⟨h0, h1, h2, h3, h4, h5, h6, h7⟩ := hgrid
      exact ⟨b0, b1, b2, b3, hbytes, ⟨h0, h1⟩, ⟨h2, h3⟩, ⟨h4, h5⟩, h6, h7⟩
    · exact nomatch hgrid
  · rintro ⟨b0, b1, b2, b3, hbytes, ⟨h0, h1⟩, ⟨h2, h3⟩, ⟨h4, h5⟩, h6, h7⟩
    rw [isGrid4, hbytes]
    simp only [isAsciiDigit, Bool.and_eq_true, decide_eq_true_eq, UInt8.le_iff_toNat_le, and_assoc]
    exact ⟨h0, h1, h2, h3, h4, h5, h6, h7⟩

theorem packGrid4_lt (hgrid : isGrid4 word = true) : packGrid4 word < maxGrid4 := by
  obtain ⟨b0, b1, b2, b3, hbytes, h0, h1, h2, h3⟩ := isGrid4_iff.mp hgrid
  rw [packGrid4, hbytes, maxGrid4]
  simp only [List.getD_cons_zero, List.getD_cons_succ]
  omega

set_option maxRecDepth 2000 in
theorem isGrid4_grid4 (value : ℕ) : isGrid4 (grid4 value) = true := by
  have hfield : ∀ letter ∈ fields.letters, 65 ≤ letter.toNat ∧ letter.toNat ≤ 82 := by decide
  have hdigit : ∀ letter ∈ digits.letters, 48 ≤ letter.toNat ∧ letter.toNat ≤ 57 := by decide
  have hascii : ∀ alphabet ∈ [fields, fields, digits, digits], ∀ letter ∈ alphabet.letters,
      letter.toNat < 128 := by decide
  rw [isGrid4_iff]
  refine ⟨_, _, _, _, bytes_ofAscii (Alphabet.forall_mem_spell hascii value), ?_⟩
  exact ⟨hfield _ (Alphabet.letter_mem _ _), hfield _ (Alphabet.letter_mem _ _),
    hdigit _ (Alphabet.letter_mem _ _), hdigit _ (Alphabet.letter_mem _ _)⟩

/-- A signed number is no grid. -/
theorem isGrid4_signed (value : ℤ) : isGrid4 (signed value) = false := by
  by_contra hgrid
  obtain ⟨b0, b1, b2, b3, hbytes, h0, _⟩ := isGrid4_iff.mp (Bool.eq_true_of_not_eq_false hgrid)
  have hsign : ∃ sign : UInt8, sign.toNat < 65 ∧ ∃ rest, bytes (signed value) = sign :: rest := by
    rw [signed]
    split_ifs
    · exact ⟨45, by decide, bytes (padded 2 value.natAbs), rfl⟩
    · exact ⟨43, by decide, bytes (padded 2 value.natAbs), rfl⟩
  obtain ⟨sign, hlow, rest, hrest⟩ := hsign
  have hsame := (List.cons.inj (hbytes.symm.trans hrest)).1
  rw [← hsame] at hlow
  omega

/-- The text of a report. -/
theorem extraField_report {report : ℕ} (hreport : 5 ≤ report ∧ report ≤ 105) (roger : Bool) :
    ∃ value, extraField (maxGrid4 + report) roger =
      some (if roger then 'R' :: signed value else signed value) := by
  rw [extraField, if_neg (by omega), Nat.add_sub_cancel_left]
  simp only []
  rw [if_neg (by omega), if_neg (by omega), if_neg (by omega), if_neg (by omega), if_pos hreport,
    Option.bind_some]
  cases roger with
  | false => exact ⟨_, rfl⟩
  | true => exact ⟨_, if_pos ⟨rfl, hreport.1⟩⟩

theorem packSingleExtra_spec (hpack : packSingleExtra word = some (roger, g15)) : g15 < 2 ^ 15 ∧
    ∃ text, extraField g15 roger = some text ∧
      ((roger = true ∨ ¬(text = [] ∨ isGrid4 text = true)) ↔ ¬isGrid4 word = true) := by
  rw [packSingleExtra] at hpack
  split_ifs at hpack with hrrr hrr73 h73 hgrid
  · obtain ⟨rfl, rfl⟩ := Prod.mk.inj (Option.some.inj hpack)
    exact ⟨by decide, "RRR".toList, rfl, by rw [hrrr]; decide⟩
  · obtain ⟨rfl, rfl⟩ := Prod.mk.inj (Option.some.inj hpack)
    exact ⟨by decide, "RR73".toList, rfl, by rw [hrr73]; decide⟩
  · obtain ⟨rfl, rfl⟩ := Prod.mk.inj (Option.some.inj hpack)
    exact ⟨by decide, "73".toList, rfl, by rw [h73]; decide⟩
  · obtain ⟨rfl, rfl⟩ := Prod.mk.inj (Option.some.inj hpack)
    have hlt := packGrid4_lt hgrid
    refine ⟨Nat.lt_trans hlt (by decide), _, if_pos hlt, ?_⟩
    exact iff_of_false (by simp [isGrid4_grid4]) (not_not.mpr hgrid)
  · have hreport : ∃ report, (5 ≤ report ∧ report ≤ 105) ∧ g15 = maxGrid4 + report := by
      dsimp only at hpack
      split_ifs at hpack with hsign
      obtain ⟨snr, _, hsnr⟩ := Option.bind_eq_some_iff.mp hpack
      split_ifs at hsnr with hhigh hlow
      · obtain ⟨_, rfl⟩ := Prod.mk.inj (Option.some.inj hsnr)
        exact ⟨(snr + 35).toNat, by omega, rfl⟩
      · obtain ⟨_, rfl⟩ := Prod.mk.inj (Option.some.inj hsnr)
        exact ⟨(snr + 136).toNat, by omega, rfl⟩
    obtain ⟨report, hbounds, rfl⟩ := hreport
    obtain ⟨value, hvalue⟩ := extraField_report hbounds roger
    refine ⟨by rw [maxGrid4]; omega, _, hvalue, ?_⟩
    apply iff_of_true _ hgrid
    cases roger with
    | true => exact Or.inl rfl
    | false =>
      right
      rintro (h | h)
      · cases h
      · rw [if_neg Bool.false_ne_true, isGrid4_signed] at h
        exact Bool.false_ne_true h

/-- What is packed after the calls is unpacked, and it is for everyone if it says a grid at most. -/
theorem packExtra_spec (hpack : packExtra extra = some (roger, g15)) : g15 < 2 ^ 15 ∧
    ∃ text, extraField g15 roger = some text ∧
      ((roger = true ∨ ¬(text = [] ∨ isGrid4 text = true)) ↔ ¬SaysGrid extra) := by
  have hsingle (word : List Char) : SaysGrid [word] ↔ isGrid4 word = true := by
    constructor
    · rintro (h | ⟨grid, h, hgrid⟩)
      · exact nomatch h
      · rwa [(List.cons.inj h).1]
    · exact fun hgrid ↦ Or.inr ⟨word, rfl, hgrid⟩
  match extra, hpack with
  | [], hpack =>
    obtain ⟨rfl, rfl⟩ := Prod.mk.inj (Option.some.inj hpack)
    exact ⟨by decide, [], rfl, by simp [SaysGrid]⟩
  | [word], hpack =>
    rw [hsingle]
    exact packSingleExtra_spec hpack
  | [first, grid], hpack =>
    rw [packExtra] at hpack
    split_ifs at hpack with hgrid
    obtain ⟨rfl, rfl⟩ := Prod.mk.inj (Option.some.inj hpack)
    have hlt := packGrid4_lt hgrid.2
    have hsays : ¬SaysGrid [first, grid] := by
      rintro (h | ⟨word, h, _⟩)
      · exact nomatch h
      · exact nomatch (List.cons.inj h).2
    refine ⟨Nat.lt_trans hlt (by decide), _, if_pos hlt, ?_⟩
    exact iff_of_true (Or.inl rfl) hsays
  | _ :: _ :: _ :: _, hpack => exact nomatch hpack

end Extra

/-! ## Standard messages -/

section Standard

variable {words : List (List Char)} {first second roger firstSuffix secondSuffix g15 kind : ℕ}

/-- The fields of a standard message. -/
structure StandardFields (first firstSuffix second secondSuffix roger g15 kind : ℕ) : Prop where
  first_lt : first < 2 ^ 28
  firstSuffix_lt : firstSuffix < 2
  second_lt : second < 2 ^ 28
  secondSuffix_lt : secondSuffix < 2
  roger_lt : roger < 2
  g15_lt : g15 < 2 ^ 15
  standard : kind = 1 ∨ kind = 2

/-- The bits of a standard message. -/
def standardBits (first firstSuffix second secondSuffix roger g15 kind : ℕ) : ℕ :=
  (((((first * 2 + firstSuffix) * 2 ^ 28 + second) * 2 + secondSuffix) * 2 + roger) * 2 ^ 15 + g15) *
    2 ^ 3 + kind

theorem put_standard (h : StandardFields first firstSuffix second secondSuffix roger g15 kind) :
    (((((((Writer.default.put first 28).put firstSuffix 1).put second 28).put secondSuffix 1).put
      roger 1).put g15 15).put kind 3).finish =
      some (standardBits first firstSuffix second secondSuffix roger g15 kind) := by
  obtain ⟨h0, h1, h2, h3, h4, h5, h6⟩ := h
  rw [Writer.put_eq _ h0, Writer.put_eq _ (by omega : firstSuffix < 2 ^ 1), Writer.put_eq _ h2,
    Writer.put_eq _ (by omega : secondSuffix < 2 ^ 1), Writer.put_eq _ (by omega : roger < 2 ^ 1),
    Writer.put_eq _ h5, Writer.put_eq _ (by omega : kind < 2 ^ 3)]
  refine (if_pos rfl).trans (congrArg some ?_)
  simp only [Writer.default, standardBits, Nat.zero_mul, Nat.zero_add, pow_one]

theorem standard_bits (h : StandardFields first firstSuffix second secondSuffix roger g15 kind) :
    unpack (standardBits first firstSuffix second secondSuffix roger g15 kind) = (do
      let suffix := if kind = 1 then "/R".toList else "/P".toList
      let first ← call28 first
      let first ← withSuffix first (firstSuffix = 1) suffix
      let second ← call28 second
      let second ← withSuffix second (secondSuffix = 1) suffix
      orRefuse (standardText first second g15 (roger = 1))) := by
  obtain ⟨h0, h1, h2, h3, h4, h5, h6⟩ := h
  obtain ⟨bits, hbits⟩ : ∃ bits, standardBits first firstSuffix second secondSuffix roger g15 kind = bits :=
    ⟨_, rfl⟩
  rw [hbits]
  rw [standardBits] at hbits
  have hfirst : (Reader.new bits).take 28 = (first, ⟨bits, 49⟩) :=
    take_eq (by omega : bits / 2 ^ 49 % 2 ^ 28 = first)
  have hfirstSuffix : Reader.take ⟨bits, 49⟩ 1 = (firstSuffix, ⟨bits, 48⟩) :=
    take_eq (by omega : bits / 2 ^ 48 % 2 ^ 1 = firstSuffix)
  have hsecond : Reader.take ⟨bits, 48⟩ 28 = (second, ⟨bits, 20⟩) :=
    take_eq (by omega : bits / 2 ^ 20 % 2 ^ 28 = second)
  have hsecondSuffix : Reader.take ⟨bits, 20⟩ 1 = (secondSuffix, ⟨bits, 19⟩) :=
    take_eq (by omega : bits / 2 ^ 19 % 2 ^ 1 = secondSuffix)
  have hroger : Reader.take ⟨bits, 19⟩ 1 = (roger, ⟨bits, 18⟩) :=
    take_eq (by omega : bits / 2 ^ 18 % 2 ^ 1 = roger)
  have hg15 : Reader.take ⟨bits, 18⟩ 15 = (g15, ⟨bits, 3⟩) :=
    take_eq (by omega : bits / 2 ^ 3 % 2 ^ 15 = g15)
  have hkind : Reader.take ⟨bits, 3⟩ 3 = (kind, ⟨bits, 0⟩) :=
    take_eq (by omega : bits / 2 ^ 0 % 2 ^ 3 = kind)
  have hi3 : bits % 8 = kind := by omega
  have hbranch : unpack bits = standard bits := by
    rw [unpack]
    simp only [hi3]
    rw [if_neg (by omega), if_pos h6]
  rw [hbranch, standard]
  simp only [hfirst, hfirstSuffix, hsecond, hsecondSuffix, hroger, hg15, hkind]

/-- What the first field of a standard message stands for. -/
theorem packFirst_spec (hwords : ∀ word ∈ words, ' ' ∉ word) {secondWord : List Char}
    {extra : List (List Char)} (hpack : packFirst words = some (first, secondWord :: extra)) :
    first < 2 ^ 28 ∧ secondWord ∈ words ∧ standardExtra words = extra ∧
      ∃ firstWord, words.head? = some firstWord ∧
        ((isToken firstWord = true ∧ ∃ token, isToken token = true ∧
            ∀ book, (call28 first).on book = (some token, book)) ∨
          (isToken firstWord = false ∧
            ∀ book, ∃ call next, (call28 first).on book = (some call, next) ∧ Plain call)) := by
  have hcall (word : List Char) (hword : ' ' ∉ word) (hcall : pack28 word = some first) :
      first < 2 ^ 28 ∧ ((isToken word = true ∧ ∃ token, isToken token = true ∧
          ∀ book, (call28 first).on book = (some token, book)) ∨
        (isToken word = false ∧
          ∀ book, ∃ call next, (call28 first).on book = (some call, next) ∧ Plain call)) := by
    cases htoken : isToken word with
    | true =>
      obtain ⟨hlt, hspec⟩ := pack28_token hword htoken hcall
      exact ⟨hlt, Or.inl ⟨rfl, hspec⟩⟩
    | false =>
      obtain ⟨hlt, hspec⟩ := pack28_plain hword htoken hcall
      exact ⟨hlt, Or.inr ⟨rfl, hspec⟩⟩
  match words, hwords, hpack with
  | [], _, hpack => exact nomatch hpack
  | [word], _, hpack =>
    obtain ⟨number, _, hnumber⟩ := Option.map_eq_some_iff.mp hpack
    exact nomatch (Prod.mk.inj hnumber).2
  | firstWord :: modifier :: rest, hwords, hpack =>
    rw [packFirst] at hpack
    rw [standardExtra]
    split_ifs at hpack ⊢ with hmodifier
    · obtain ⟨number, hnumber, heq⟩ := Option.map_eq_some_iff.mp hpack
      obtain ⟨rfl, rfl⟩ := Prod.mk.inj heq
      have hsame : cqModifier modifier = some number := by
        rw [pack28Token, if_neg (by simp), if_neg (by simp), if_neg (by simp),
          stripPrefix_eq_some.mpr rfl] at hnumber
        exact hnumber
      obtain ⟨hlt, htoken⟩ := cqModifier_token hsame
      refine ⟨hlt, ?_, rfl, firstWord, rfl, Or.inl ⟨by rw [hmodifier.1]; rfl, htoken⟩⟩
      exact List.mem_cons_of_mem _ (List.mem_cons_of_mem _ List.mem_cons_self)
    · obtain ⟨number, hnumber, heq⟩ := Option.map_eq_some_iff.mp hpack
      obtain ⟨rfl, hrest⟩ := Prod.mk.inj heq
      obtain ⟨rfl, rfl⟩ := List.cons.inj hrest
      obtain ⟨hlt, hspec⟩ := hcall firstWord (hwords firstWord List.mem_cons_self) hnumber
      exact ⟨hlt, List.mem_cons_of_mem _ List.mem_cons_self, rfl, firstWord, rfl, hspec⟩

theorem standardText_isSome {firstText secondText text : List Char} {flag : Bool}
    (hsecond : isToken secondText = false) (htext : extraField g15 flag = some text) :
    (standardText firstText secondText g15 flag).isSome ↔
      ¬(isToken firstText = true ∧ (flag = true ∨ ¬(text = [] ∨ isGrid4 text = true))) := by
  rw [standardText, hsecond, if_neg Bool.false_ne_true, htext, Option.bind_some]
  split_ifs with hrefused hempty
  · exact iff_of_false Bool.false_ne_true (not_not.mpr hrefused)
  · exact iff_of_true rfl hrefused
  · exact iff_of_true rfl hrefused

/-- A standard message is unpacked unless it says more than a grid to everyone. -/
theorem standard_decodes_iff (hwords : ∀ word ∈ words, ' ' ∉ word) {bits : ℕ}
    (hpack : packStandard words = some bits) (book : CallBook) :
    ((unpack bits).on book).1.isSome ↔
      ((∀ first ∈ words.head?, isToken first) → SaysGrid (standardExtra words)) := by
  rw [packStandard] at hpack
  obtain ⟨⟨first, rest⟩, hfirst, hpack⟩ := Option.bind_eq_some_iff.mp hpack
  cases rest with
  | nil => exact nomatch hpack
  | cons secondWord extra =>
    obtain ⟨second, hsecond, hpack⟩ := Option.bind_eq_some_iff.mp hpack
    split_ifs at hpack with hsecondToken
    obtain ⟨⟨roger, g15⟩, hextra, hpack⟩ := Option.bind_eq_some_iff.mp hpack
    simp only [] at hpack
    split at hpack
    · exact nomatch hpack
    obtain ⟨firstWord, hhead, hpack⟩ := Option.bind_eq_some_iff.mp hpack
    obtain ⟨hfirstLt, hmem, hextraWords, firstWord', hhead', hspec⟩ := packFirst_spec hwords hfirst
    obtain rfl : firstWord = firstWord' := Option.some.inj (hhead.symm.trans hhead')
    obtain ⟨hsecondLt, hsecondSpec⟩ := pack28_plain (hwords secondWord hmem)
      (Bool.eq_false_of_not_eq_true hsecondToken) hsecond
    obtain ⟨hg15, text, htext, hsays⟩ := packExtra_spec hextra
    generalize hkind : (if (words.any fun x ↦ "/P".toList.isSuffixOf x) = true then 2 else 1) = kind at hpack
    have hstandard : kind = 1 ∨ kind = 2 := by
      rw [← hkind]
      split_ifs
      · exact Or.inr rfl
      · exact Or.inl rfl
    have hbool (flag : Bool) : flag.toNat < 2 := by cases flag <;> decide
    have hfields : StandardFields first (hasSuffix firstWord).toNat second (hasSuffix secondWord).toNat
        roger.toNat g15 kind :=
      ⟨hfirstLt, hbool _, hsecondLt, hbool _, hbool _, hg15, hstandard⟩
    obtain rfl := Option.some.inj ((put_standard hfields).symm.trans hpack)
    have hsuffix : (if kind = 1 then "/R".toList else "/P".toList) = "/R".toList ∨
        (if kind = 1 then "/R".toList else "/P".toList) = "/P".toList := by
      split_ifs
      · exact Or.inl rfl
      · exact Or.inr rfl
    have hroger : decide (roger.toNat = 1) = roger := by cases roger <;> rfl
    rw [standard_bits hfields, hextraWords, hhead, hroger]
    simp only []
    rcases hspec with ⟨hfirstToken, token, htoken, hon⟩ | ⟨hfirstToken, hon⟩
    · rw [on_bind_some (hon book), on_bind_some (on_withSuffix_token htoken _ _ book)]
      obtain ⟨call, next, hcall, hplain⟩ := hsecondSpec book
      obtain ⟨result, last, hresult, hnoToken⟩ := on_withSuffix hplain
        (decide ((hasSuffix secondWord).toNat = 1)) hsuffix next
      rw [on_bind_some hcall, on_bind_some hresult, on_orRefuse, standardText_isSome hnoToken htext,
        hsays, htoken]
      simp [hfirstToken]
    · obtain ⟨firstCall, start, hfirstCall, hfirstPlain⟩ := hon book
      obtain ⟨firstResult, middle, hfirstResult, hfirstNoToken⟩ := on_withSuffix hfirstPlain
        (decide ((hasSuffix firstWord).toNat = 1)) hsuffix start
      rw [on_bind_some hfirstCall, on_bind_some hfirstResult]
      obtain ⟨call, next, hcall, hplain⟩ := hsecondSpec middle
      obtain ⟨result, last, hresult, hnoToken⟩ := on_withSuffix hplain
        (decide ((hasSuffix secondWord).toNat = 1)) hsuffix next
      rw [on_bind_some hcall, on_bind_some hresult, on_orRefuse, standardText_isSome hnoToken htext,
        hfirstNoToken]
      simp [hfirstToken]

end Standard

/-! ## Calls in full -/

section Nonstandard

variable {words : List (List Char)} {n12 n58 flip reply cq : ℕ}

structure NonstandardFields (n12 n58 flip reply cq : ℕ) : Prop where
  n12_lt : n12 < 2 ^ 12
  n58_lt : n58 < 2 ^ 58
  flip_lt : flip < 2
  reply_lt : reply < 2 ^ 2
  cq_lt : cq < 2

/-- The bits of a message with a call in full. -/
def nonstandardBits (n12 n58 flip reply cq : ℕ) : ℕ :=
  ((((n12 * 2 ^ 58 + n58) * 2 + flip) * 2 ^ 2 + reply) * 2 + cq) * 2 ^ 3 + 4

theorem put_nonstandard (h : NonstandardFields n12 n58 flip reply cq) :
    ((((((Writer.default.put n12 12).put n58 58).put flip 1).put reply 2).put cq 1).put 4 3).finish =
      some (nonstandardBits n12 n58 flip reply cq) := by
  obtain ⟨h0, h1, h2, h3, h4⟩ := h
  rw [Writer.put_eq _ h0, Writer.put_eq _ h1, Writer.put_eq _ (by omega : flip < 2 ^ 1),
    Writer.put_eq _ h3, Writer.put_eq _ (by omega : cq < 2 ^ 1),
    Writer.put_eq _ (by decide : 4 < 2 ^ 3)]
  refine (if_pos rfl).trans (congrArg some ?_)
  simp only [Writer.default, nonstandardBits, Nat.zero_mul, Nat.zero_add, pow_one]

/-- After the call in full is read, the message is unpacked unless it is a reply to everyone. -/
theorem nonstandard_isSome (h : NonstandardFields n12 n58 flip reply cq) (book : CallBook) :
    ((unpack (nonstandardBits n12 n58 flip reply cq)).on book).1.isSome ↔
      (call58 n58).isSome ∧ (cq = 1 → reply = 0) := by
  obtain ⟨h0, h1, h2, h3, h4⟩ := h
  obtain ⟨bits, hbits⟩ : ∃ bits, nonstandardBits n12 n58 flip reply cq = bits := ⟨_, rfl⟩
  rw [hbits]
  rw [nonstandardBits] at hbits
  have hn12 : (Reader.new bits).take 12 = (n12, ⟨bits, 65⟩) :=
    take_eq (by omega : bits / 2 ^ 65 % 2 ^ 12 = n12)
  have hn58 : Reader.take ⟨bits, 65⟩ 58 = (n58, ⟨bits, 7⟩) :=
    take_eq (by omega : bits / 2 ^ 7 % 2 ^ 58 = n58)
  have hflip : Reader.take ⟨bits, 7⟩ 1 = (flip, ⟨bits, 6⟩) :=
    take_eq (by omega : bits / 2 ^ 6 % 2 ^ 1 = flip)
  have hreply : Reader.take ⟨bits, 6⟩ 2 = (reply, ⟨bits, 4⟩) :=
    take_eq (by omega : bits / 2 ^ 4 % 2 ^ 2 = reply)
  have hcq : Reader.take ⟨bits, 4⟩ 1 = (cq, ⟨bits, 3⟩) :=
    take_eq (by omega : bits / 2 ^ 3 % 2 ^ 1 = cq)
  have hi3 : bits % 8 = 4 := by omega
  have hbranch : unpack bits = nonstandard bits := by
    rw [unpack]
    simp only [hi3]
    rw [if_neg (by decide), if_neg (by decide), if_neg (by decide), if_pos trivial]
  rw [hbranch, nonstandard]
  simp only [hn12, hn58, hflip, hreply, hcq]
  cases hplain : call58 n58 with
  | none =>
    rw [on_bind, on_orRefuse]
    simp
  | some plain =>
    rw [on_bind_some (on_orRefuse (some plain) book), on_bind_some (on_remember plain book)]
    by_cases heveryone : cq = 1
    · rw [if_pos heveryone, on_orRefuse]
      by_cases hnone : reply = 0
      · rw [if_pos hnone]
        exact iff_of_true rfl ⟨rfl, fun _ ↦ hnone⟩
      · rw [if_neg hnone]
        exact iff_of_false Bool.false_ne_true fun h ↦ hnone (h.2 heveryone)
    · rw [if_neg heveryone, on_bind_some (on_lookup _ _)]
      exact iff_of_true rfl ⟨rfl, fun h ↦ absurd h heveryone⟩

set_option maxRecDepth 2000 in
/-- A call that was spelled out is read back if it is well formed. -/
theorem call58_of_read {plain : List Char} (hword : ∀ c ∈ plain, isWhitespace c = false)
    (hread : Alphabet.read (List.replicate 11 a38) (List.leftpad 11 32 (bytes plain)) 0 = some n58) :
    n58 < 2 ^ 58 ∧ call58 n58 = if wellFormed plain then some plain else none := by
  have hlt := Alphabet.read_lt hread
  have hcount : Alphabet.count (List.replicate 11 a38) = 38 ^ 11 := by decide
  have hspell := Alphabet.spell_of_read hread
  have hletters : ∀ alphabet ∈ List.replicate 11 a38, ∀ letter ∈ alphabet.letters,
      letter.toNat < 128 := by
    intro alphabet halphabet
    rw [List.eq_of_mem_replicate halphabet]
    decide
  have hascii : ∀ code ∈ bytes plain, code.toNat < 128 := by
    have hall := Alphabet.forall_mem_spell hletters n58
    rw [hspell, List.leftpad] at hall
    exact (List.forall_mem_append.mp hall).2
  have htext : trim (ofAscii (List.leftpad 11 32 (bytes plain))) = plain := by
    have hpad : ofAscii (List.leftpad 11 32 (bytes plain)) =
        List.replicate (11 - (bytes plain).length) ' ' ++ plain := by
      rw [List.leftpad, ofAscii, List.map_append, List.map_replicate, ← ofAscii, ofAscii_bytes hascii]
      rfl
    rw [hpad, trim, trimStart_spaces, ← trim, trim_word hword]
  refine ⟨?_, ?_⟩
  · rw [hcount] at hlt
    exact Nat.lt_trans hlt (by decide)
  · rw [call58, hspell]
    simp only [ne_eq, not_true_eq_false, if_false, htext]

theorem otherHash_lt {parts : Nonstandard} (hhash : otherHash parts = some n12) : n12 < 2 ^ 12 := by
  rw [otherHash] at hhash
  split_ifs at hhash
  · rw [← Option.some.inj hhash]
    decide
  · obtain ⟨n22, hn22, rfl⟩ := Option.map_eq_some_iff.mp hhash
    have hlt := hash22_lt hn22
    omega

theorem replyCode_lt {rest : List (List Char)} (hreply : replyCode rest = some reply) :
    reply < 2 ^ 2 := by
  rw [replyCode] at hreply
  split_ifs at hreply
  all_goals
    rw [← Option.some.inj hreply]
    decide

/-- The call in full is one of the words, and nothing is replied to everyone. -/
theorem nonstandardParts_spec {parts : Nonstandard} (hparts : nonstandardParts words = some parts) :
    parts.plain ∈ words ∧ parts.reply < 2 ^ 2 ∧ (parts.cq = true → parts.reply = 0) := by
  match words, hparts with
  | first :: second :: rest, hparts =>
    rw [nonstandardParts] at hparts
    split_ifs at hparts with heveryone
    · obtain rfl := Option.some.inj hparts
      exact ⟨List.mem_cons_of_mem _ List.mem_cons_self, Nat.two_pow_pos 2, fun _ ↦ rfl⟩
    · obtain ⟨reply, hreply, hparts⟩ := Option.bind_eq_some_iff.mp hparts
      have hlt := replyCode_lt hreply
      split at hparts
      · obtain rfl := Option.some.inj hparts
        exact ⟨List.mem_cons_of_mem _ List.mem_cons_self, hlt, nofun⟩
      · obtain rfl := Option.some.inj hparts
        exact ⟨List.mem_cons_self, hlt, nofun⟩
      · exact nomatch hparts

/-- A message with a call in full is unpacked if the call is well formed. -/
theorem nonstandard_decodes_iff (hwords : ∀ word ∈ words, ∀ c ∈ word, isWhitespace c = false) {bits : ℕ}
    (hpack : packNonstandard words = some bits) (book : CallBook) :
    ((unpack bits).on book).1.isSome ↔ ∀ parts ∈ nonstandardParts words, wellFormed parts.plain := by
  rw [packNonstandard] at hpack
  obtain ⟨parts, hparts, hpack⟩ := Option.bind_eq_some_iff.mp hpack
  obtain ⟨n12, hn12, hpack⟩ := Option.bind_eq_some_iff.mp hpack
  simp only [] at hpack
  split_ifs at hpack
  obtain ⟨n58, hn58, hpack⟩ := Option.bind_eq_some_iff.mp hpack
  obtain ⟨hplain, hreply, hcq⟩ := nonstandardParts_spec hparts
  obtain ⟨hn58Lt, hcall⟩ := call58_of_read (hwords parts.plain hplain) hn58
  have hbool (flag : Bool) : flag.toNat < 2 := by cases flag <;> decide
  have hfields : NonstandardFields n12 n58 parts.flip.toNat parts.reply parts.cq.toNat :=
    ⟨otherHash_lt hn12, hn58Lt, hbool _, hreply, hbool _⟩
  obtain rfl := Option.some.inj ((put_nonstandard hfields).symm.trans hpack)
  have hnoReply : parts.cq.toNat = 1 → parts.reply = 0 := by
    intro h
    apply hcq
    cases heveryone : parts.cq with
    | true => rfl
    | false =>
      rw [heveryone] at h
      cases h
  rw [nonstandard_isSome hfields, hcall, hparts]
  constructor
  · rintro ⟨hsome, _⟩ other hother
    obtain rfl := Option.some.inj hother
    split_ifs at hsome with hwell
    · exact hwell
    · exact absurd hsome Bool.false_ne_true
  · intro hall
    rw [if_pos (hall parts rfl)]
    exact ⟨rfl, hnoReply⟩

end Nonstandard

/-! ## Free text -/

set_option maxRecDepth 2000 in
/-- Thirteen characters that are not all spaces are unpacked. -/
theorem freeText_decodes {text : List Char} (htext : trim text ≠ []) {bits : ℕ}
    (hpack : packFreeText text = some bits) (book : CallBook) :
    ((unpack bits).on book).1.isSome := by
  rw [packFreeText] at hpack
  split_ifs at hpack
  obtain ⟨value, hvalue, hpack⟩ := Option.bind_eq_some_iff.mp hpack
  have hlt : value < 2 ^ 71 := by
    have hcount : Alphabet.count (List.replicate 13 a42) = 42 ^ 13 := by decide
    have hread := Alphabet.read_lt hvalue
    rw [hcount] at hread
    exact Nat.lt_trans hread (by decide)
  have hspell := Alphabet.spell_of_read hvalue
  have hbits : bits = value * 2 ^ 6 := by
    rw [Writer.put_eq _ (by omega : value / 2 ^ 64 % 2 ^ 64 < 2 ^ 7),
      Writer.put_eq _ (by omega : value % 2 ^ 64 < 2 ^ 64), Writer.put_eq _ (by decide : 0 < 2 ^ 6)]
      at hpack
    have hnumber := Option.some.inj hpack
    simp only [Writer.default] at hnumber
    omega
  have hascii : ∀ code ∈ bytes (List.leftpad 13 ' ' (trim text)), code.toNat < 128 := by
    have hletters : ∀ alphabet ∈ List.replicate 13 a42, ∀ letter ∈ alphabet.letters,
        letter.toNat < 128 := by
      intro alphabet halphabet
      rw [List.eq_of_mem_replicate halphabet]
      decide
    have hall := Alphabet.forall_mem_spell hletters value
    rw [hspell] at hall
    exact hall
  have hword : trim (List.leftpad 13 ' ' (trim text)) ≠ [] := by
    have hletter : ∃ c ∈ text, isWhitespace c = false := by
      by_contra hnone
      apply htext
      apply trim_eq_nil_of_forall
      intro c hc
      exact Bool.eq_true_of_not_eq_false fun h ↦ hnone ⟨c, hc, h⟩
    obtain ⟨c, hc, hblack⟩ := hletter
    have hmem : c ∈ List.leftpad 13 ' ' (trim text) := by
      rw [List.leftpad]
      exact List.mem_append_right _ (mem_trim hc hblack)
    exact List.ne_nil_of_mem (mem_trim hmem hblack)
  have hfree : freeText bits = some (trim (List.leftpad 13 ' ' (trim text))) := by
    have hvalue : bits / 2 ^ 6 = value := by omega
    rw [freeText, hvalue, hspell]
    simp only [ne_eq, not_true_eq_false, if_false]
    rw [ofAscii_bytes hascii, if_neg hword]
  have hbranch : unpack bits = orRefuse (freeText bits) := by
    have hi3 : bits % 8 = 0 := by omega
    have hn3 : bits / 8 % 8 = 0 := by omega
    rw [unpack]
    simp only [hi3, hn3, if_true]
  rw [hbranch, on_orRefuse, hfree]
  rfl

/-! ## Packing -/

/-- A text that is not blank is packed to a message that unpacks, if at all, exactly if it says no more
than a grid to everyone and its call in full is well formed. -/
theorem packed_decodes_iff {text : List Char} (htext : trim text ≠ []) :
    PackedDecodes text ↔ Decodable (splitWhitespace text) := by
  have hwords : ∀ word ∈ splitWhitespace text, ∀ c ∈ word, isWhitespace c = false :=
    fun word hword ↦ (isWhitespace_of_mem_splitWhitespace hword).2
  have hspaces : ∀ word ∈ splitWhitespace text, ' ' ∉ word := by
    intro word hword hspace
    exact Bool.noConfusion (hwords word hword ' ' hspace)
  have hpack : pack text = ((packStandard (splitWhitespace text)).or
      (packNonstandard (splitWhitespace text))).or (packFreeText text) := rfl
  cases hstandard : packStandard (splitWhitespace text) with
  | some bits =>
    have hbits : pack text = some bits := by rw [hpack, hstandard, Option.some_or, Option.some_or]
    have hiff := standard_decodes_iff hspaces hstandard
    constructor
    · intro hdecodes
      refine ⟨fun _ ↦ (hiff CallBook.empty).mp (hdecodes bits hbits CallBook.empty), ?_⟩
      rw [hstandard]
      exact nofun
    · intro hdecodable other hother book
      obtain rfl := Option.some.inj (hbits.symm.trans hother)
      exact (hiff book).mpr (hdecodable.standard (by rw [hstandard]; rfl))
  | none =>
    cases hnonstandard : packNonstandard (splitWhitespace text) with
    | some bits =>
      have hbits : pack text = some bits := by
        rw [hpack, hstandard, hnonstandard, Option.none_or, Option.some_or]
      have hiff := nonstandard_decodes_iff hwords hnonstandard
      constructor
      · intro hdecodes
        refine ⟨by rw [hstandard]; exact nofun, fun _ _ ↦ ?_⟩
        exact (hiff CallBook.empty).mp (hdecodes bits hbits CallBook.empty)
      · intro hdecodable other hother book
        obtain rfl := Option.some.inj (hbits.symm.trans hother)
        exact (hiff book).mpr (hdecodable.nonstandard hstandard (by rw [hnonstandard]; rfl))
    | none =>
      have hbits : pack text = packFreeText text := by
        rw [hpack, hstandard, hnonstandard, Option.none_or, Option.none_or]
      apply iff_of_true
      · intro bits hsome book
        exact freeText_decodes htext (hbits.symm.trans hsome) book
      · constructor
        · rw [hstandard]
          exact nofun
        · rw [hnonstandard]
          exact fun _ ↦ nofun

/-- A call with a grid for everyone. -/
theorem packed_decodes_cq : PackedDecodes "CQ K1ABC FN42".toList := by
  apply (packed_decodes_iff (by decide)).mpr
  have hwords : splitWhitespace "CQ K1ABC FN42".toList = ["CQ".toList, "K1ABC".toList, "FN42".toList] := by
    decide
  rw [hwords]
  constructor
  · intro _ _
    exact Or.inr ⟨"FN42".toList, by decide, by decide⟩
  · intro hnone
    exact absurd hnone (by decide)

/-- `CQ K1ABC 73` is packed, but it does not unpack. -/
theorem packed_refused :
    ¬∀ text, trim text ≠ [] → PackedDecodes text := by
  intro hall
  have hpack : pack "CQ K1ABC 73".toList = some 1136611074241697 := by decide
  have hsome := hall "CQ K1ABC 73".toList (by decide) _ hpack CallBook.empty
  have hnone : ((unpack 1136611074241697).on CallBook.empty).1 = none := by decide
  rw [hnone] at hsome
  exact Bool.false_ne_true hsome

end Sdrmm.Ftx
