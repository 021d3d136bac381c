import Mathlib.Data.Bool.AllAny
import Equium.Schemes.Sextets

/-! @src clients/desktop-miner/src-tauri/src/keystore.rs | name:Inline base64 | scheme:codec

    The wallet file is text, and the codec for it is written by hand. The decoder reads one character
    at a time into a buffer of four; `=` goes in as 255. It does not look at where the padding stands,
    whether the last group is whole, or what is in the bits to spare, and it looks characters up by the
    low byte of their code point. -/

namespace Equium.Miner.Base64
open Schemes

def alphabet : List Char := "ABCDEFGHIJKLMNOPQRSTUVWXYZabcdefghijklmnopqrstuvwxyz0123456789+/".toList

/-- `c as u8`: the low byte of the code point. -/
def asByte (c : Char) : UInt8 := UInt8.ofNat c.toNat

/-- `CHARSET`. -/
def charset : List UInt8 := alphabet.map asByte

/-! ### Encoding -/

/-- `CHARSET[s as usize] as char`. -/
def digit (s : UInt8) : Char := Char.ofNat (charset.getD s.toNat 0).toNat

/-- One turn of the loop of `encode`. -/
def encodeChunk (chunk : List UInt8) : List Char :=
  let b0 := chunk.getD 0 0
  let b1 := chunk.getD 1 0
  let b2 := chunk.getD 2 0
  [digit (sextet0 b0),
   digit (sextet1 b0 b1),
   if 1 < chunk.length then digit (sextet2 b1 b2) else '=',
   if 2 < chunk.length then digit (sextet3 b2) else '=']

/-- The loop over `bytes.chunks(3)`. -/
def encodeChunks : List UInt8 → List Char
  | [] => []
  | b0 :: b1 :: b2 :: rest => encodeChunk [b0, b1, b2] ++ encodeChunks rest
  | chunk => encodeChunk chunk

def encode (bytes : List UInt8) : String := String.ofList (encodeChunks bytes)

/-! ### Decoding -/

/-- `char::is_whitespace`: the Unicode property. -/
def isWhitespace (c : Char) : Bool :=
  let n := c.toNat
  (9 ≤ n && n ≤ 13) || n = 0x20 || n = 0x85 || n = 0xA0 || n = 0x1680 || (0x2000 ≤ n && n ≤ 0x200A) ||
    n = 0x2028 || n = 0x2029 || n = 0x202F || n = 0x205F || n = 0x3000

/-- What goes into the buffer for a character. -/
def value (c : Char) : Option UInt8 :=
  if c = '=' then some 255 else (charset.findIdx? fun b => b = asByte c).map UInt8.ofNat

/-- The locals of `decode`. -/
structure Decoder where
  buf : List UInt8
  i : ℕ
  out : List UInt8
  deriving DecidableEq

/-- `buf[i] = v`, and the bytes of a full buffer. -/
def Decoder.push (s : Decoder) (v : UInt8) : Decoder :=
  let buf := s.buf.set s.i v
  let i := s.i + 1
  if i = 4 then
    let out := s.out ++ [byte0 (buf.getD 0 0) (buf.getD 1 0)]
    let out := if buf.getD 2 0 ≠ 255 then out ++ [byte1 (buf.getD 1 0) (buf.getD 2 0)] else out
    let out := if buf.getD 3 0 ≠ 255 then out ++ [byte2 (buf.getD 2 0) (buf.getD 3 0)] else out
    ⟨buf, 0, out⟩
  else ⟨buf, i, s.out⟩

/-- The loop over the characters. -/
def decodeChars : List Char → Decoder → Except String (List UInt8)
  | [], s => .ok s.out
  | c :: cs, s =>
    match value c with
    | none => .error s!"invalid char: {c}"
    | some v => decodeChars cs (s.push v)

/-- The string without its whitespace. -/
def stripped (s : String) : List Char := s.toList.filter fun c => !isWhitespace c

def decode (s : String) : Except String (List UInt8) := decodeChars (stripped s) ⟨[0, 0, 0, 0], 0, []⟩

/-! ### The alphabet -/

/-- The sextet a letter stands for. -/
def sextetOf (c : Char) : UInt8 := UInt8.ofNat (alphabet.idxOf c)

theorem alphabet_letters : alphabet =
    ['A', 'B', 'C', 'D', 'E', 'F', 'G', 'H', 'I', 'J', 'K', 'L', 'M', 'N', 'O', 'P', 'Q', 'R', 'S', 'T',
      'U', 'V', 'W', 'X', 'Y', 'Z', 'a', 'b', 'c', 'd', 'e', 'f', 'g', 'h', 'i', 'j', 'k', 'l', 'm', 'n',
      'o', 'p', 'q', 'r', 's', 't', 'u', 'v', 'w', 'x', 'y', 'z', '0', '1', '2', '3', '4', '5', '6', '7',
      '8', '9', '+', '/'] :=
  String.toList_ofList

theorem charset_bytes : charset =
    [65, 66, 67, 68, 69, 70, 71, 72, 73, 74, 75, 76, 77, 78, 79, 80, 81, 82, 83, 84, 85, 86, 87, 88, 89,
      90, 97, 98, 99, 100, 101, 102, 103, 104, 105, 106, 107, 108, 109, 110, 111, 112, 113, 114, 115, 116,
      117, 118, 119, 120, 121, 122, 48, 49, 50, 51, 52, 53, 54, 55, 56, 57, 43, 47] := by
  rw [charset, alphabet_letters]
  rfl

-- the alphabet is written out first: the checks of all letters then run over short terms

theorem digit_spec : ∀ n < 64, digit (UInt8.ofNat n) ∈ alphabet ∧
    sextetOf (digit (UInt8.ofNat n)) = UInt8.ofNat n := by
  simp only [digit, sextetOf, charset_bytes, alphabet_letters]
  decide +kernel

theorem letter_spec : ∀ c ∈ alphabet, value c = some (sextetOf c) ∧ sextetOf c < 64 ∧
    digit (sextetOf c) = c ∧ isWhitespace c = false := by
  simp only [value, digit, sextetOf, charset_bytes, alphabet_letters]
  refine List.all_iff_forall_prop.mp ?_
  decide +kernel

theorem digit_mem {s : UInt8} (h : s < 64) : digit s ∈ alphabet := by
  have hspec := (digit_spec s.toNat (UInt8.lt_iff_toNat_lt.mp h)).1
  rwa [UInt8.ofNat_toNat] at hspec

theorem sextetOf_digit {s : UInt8} (h : s < 64) : sextetOf (digit s) = s := by
  have hspec := (digit_spec s.toNat (UInt8.lt_iff_toNat_lt.mp h)).2
  rwa [UInt8.ofNat_toNat] at hspec

theorem value_digit {s : UInt8} (h : s < 64) : value (digit s) = some s := by
  rw [(letter_spec _ (digit_mem h)).1, sextetOf_digit h]

theorem value_eq_none (c : Char) : value c = none ↔ c ≠ '=' ∧ asByte c ∉ charset := by
  rw [value]
  split_ifs with hpad
  · simp [hpad]
  · simp only [Option.map_eq_none_iff, List.findIdx?_eq_none_iff, decide_eq_false_iff_not, ne_eq, hpad,
      not_false_eq_true, true_and]
    exact ⟨fun h hmem => h _ hmem rfl, fun h b hb he => h (he ▸ hb)⟩

/-! ### The loop -/

/-- One group: four values leave an empty buffer behind. -/
theorem push_group (buf : List UInt8) (hbuf : buf.length = 4) (out : List UInt8) (s0 s1 s2 s3 : UInt8) :
    ((((Decoder.mk buf 0 out).push s0).push s1).push s2).push s3 =
      ⟨[s0, s1, s2, s3], 0, out ++ byte0 s0 s1 :: ((if s2 ≠ 255 then [byte1 s1 s2] else []) ++
        if s3 ≠ 255 then [byte2 s2 s3] else [])⟩ := by
  obtain ⟨x0, x1, x2, x3, rfl⟩ : ∃ x0 x1 x2 x3, buf = [x0, x1, x2, x3] := by
    match buf, hbuf with
    | [x0, x1, x2, x3], _ => exact ⟨x0, x1, x2, x3, rfl⟩
  by_cases h2 : s2 = 255
  · by_cases h3 : s3 = 255
    · simp [Decoder.push, h2, h3]
    · simp [Decoder.push, h2, h3]
  · by_cases h3 : s3 = 255
    · simp [Decoder.push, h2, h3]
    · simp [Decoder.push, h2, h3]

/-- The loop over the characters of one group. -/
theorem decodeChars_group {c0 c1 c2 c3 : Char} {s0 s1 s2 s3 : UInt8} (h0 : value c0 = some s0)
    (h1 : value c1 = some s1) (h2 : value c2 = some s2) (h3 : value c3 = some s3) (rest : List Char)
    (buf : List UInt8) (hbuf : buf.length = 4) (out : List UInt8) :
    decodeChars (c0 :: c1 :: c2 :: c3 :: rest) ⟨buf, 0, out⟩ = decodeChars rest
      ⟨[s0, s1, s2, s3], 0, out ++ byte0 s0 s1 :: ((if s2 ≠ 255 then [byte1 s1 s2] else []) ++
        if s3 ≠ 255 then [byte2 s2 s3] else [])⟩ := by
  rw [← push_group buf hbuf]
  simp only [decodeChars, h0, h1, h2, h3]

theorem ne_pad {s : UInt8} (h : s < 64) : s ≠ 255 := by
  rintro rfl
  exact absurd h (by decide)

theorem value_pad : value '=' = some 255 := rfl

/-- Loop lemma: decoding undoes encoding, group by group. -/
theorem decodeChars_encodeChunks (bytes : List UInt8) :
    ∀ (buf : List UInt8), buf.length = 4 → ∀ out,
      decodeChars (encodeChunks bytes) ⟨buf, 0, out⟩ = .ok (out ++ bytes) := by
  induction bytes using encodeChunks.induct with
  | case1 =>
    intro buf _ out
    simp [encodeChunks, decodeChars]
  | case2 b0 b1 b2 rest ih =>
    intro buf hbuf out
    have hgroup := decodeChars_group (value_digit (sextet0_lt b0)) (value_digit (sextet1_lt b0 b1))
      (value_digit (sextet2_lt b1 b2)) (value_digit (sextet3_lt b2)) (encodeChunks rest) buf hbuf out
    rw [byte0_sextets, if_pos (ne_pad (sextet2_lt b1 b2)), byte1_sextets,
      if_pos (ne_pad (sextet3_lt b2)), byte2_sextets] at hgroup
    exact hgroup.trans ((ih _ rfl _).trans (by simp))
  | case3 chunk hempty hfull =>
    intro buf hbuf out
    rcases chunk with _ | ⟨b0, _ | ⟨b1, _ | ⟨b2, rest⟩⟩⟩
    · exact absurd rfl hempty
    · have hgroup := decodeChars_group (value_digit (sextet0_lt b0)) (value_digit (sextet1_lt b0 0))
        value_pad value_pad [] buf hbuf out
      rw [byte0_sextets] at hgroup
      exact hgroup
    · have hgroup := decodeChars_group (value_digit (sextet0_lt b0)) (value_digit (sextet1_lt b0 b1))
        (value_digit (sextet2_lt b1 0)) value_pad [] buf hbuf out
      rw [byte0_sextets, if_pos (ne_pad (sextet2_lt b1 0)), byte1_sextets] at hgroup
      exact hgroup
    · exact absurd rfl (hfull b0 b1 b2 rest)

/-- A string is refused exactly for a character without a value. -/
theorem decodeChars_error_iff (cs : List Char) (s : Decoder) :
    (∃ e, decodeChars cs s = .error e) ↔ ∃ c ∈ cs, value c = none := by
  induction cs generalizing s with
  | nil => simp [decodeChars]
  | cons c cs ih =>
    rw [decodeChars]
    cases hc : value c with
    | none => simp [hc]
    | some v => simp [hc, ih]

/-- Only what is left without the whitespace counts. -/
theorem decode_of_stripped {s : String} {bytes : List UInt8} (h : stripped s = encodeChunks bytes) :
    decode s = .ok bytes := by
  rw [decode, h]
  exact decodeChars_encodeChunks bytes _ rfl []

/-! ### Base64 as it should be -/

/-- Texts in groups of four letters; only the last group may end in padding, and its bits to spare are
    zero. -/
inductive Canonical : List Char → Prop
  | nil : Canonical []
  | one {a b : Char} (ha : a ∈ alphabet) (hb : b ∈ alphabet) (hspare : sextetOf b &&& 15 = 0) :
      Canonical [a, b, '=', '=']
  | two {a b c : Char} (ha : a ∈ alphabet) (hb : b ∈ alphabet) (hc : c ∈ alphabet)
      (hspare : sextetOf c &&& 3 = 0) : Canonical [a, b, c, '=']
  | three {a b c d : Char} {rest : List Char} (ha : a ∈ alphabet) (hb : b ∈ alphabet)
      (hc : c ∈ alphabet) (hd : d ∈ alphabet) (hrest : Canonical rest) :
      Canonical (a :: b :: c :: d :: rest)

/-- What is encoded is base64. -/
theorem canonical_encodeChunks (bytes : List UInt8) : Canonical (encodeChunks bytes) := by
  induction bytes using encodeChunks.induct with
  | case1 => exact .nil
  | case2 b0 b1 b2 rest ih =>
    exact .three (digit_mem (sextet0_lt b0)) (digit_mem (sextet1_lt b0 b1))
      (digit_mem (sextet2_lt b1 b2)) (digit_mem (sextet3_lt b2)) ih
  | case3 chunk hempty hfull =>
    rcases chunk with _ | ⟨b0, _ | ⟨b1, _ | ⟨b2, rest⟩⟩⟩
    · exact .nil
    · have hspare : sextetOf (digit (sextet1 b0 0)) &&& 15 = 0 := by
        rw [sextetOf_digit (sextet1_lt b0 0)]
        exact sextet1_spare b0
      exact .one (digit_mem (sextet0_lt b0)) (digit_mem (sextet1_lt b0 0)) hspare
    · have hspare : sextetOf (digit (sextet2 b1 0)) &&& 3 = 0 := by
        rw [sextetOf_digit (sextet2_lt b1 0)]
        exact sextet2_spare b1
      exact .two (digit_mem (sextet0_lt b0)) (digit_mem (sextet1_lt b0 b1))
        (digit_mem (sextet2_lt b1 0)) hspare
    · exact absurd rfl (hfull b0 b1 b2 rest)

/-- Base64 is what some bytes are encoded as. -/
theorem Canonical.encoded {cs : List Char} (h : Canonical cs) : ∃ bytes, encodeChunks bytes = cs := by
  induction h with
  | nil => exact ⟨[], rfl⟩
  | @one a b ha hb hspare =>
    obtain ⟨-, ha0, hda, -⟩ := letter_spec a ha
    obtain ⟨-, hb0, hdb, -⟩ := letter_spec b hb
    refine ⟨[byte0 (sextetOf a) (sextetOf b)], ?_⟩
    change [digit (sextet0 (byte0 _ _)), digit (sextet1 (byte0 _ _) 0), '=', '='] = _
    rw [sextet0_bytes ha0 hb0, sextet1_padded hb0 hspare, hda, hdb]
  | @two a b c ha hb hc hspare =>
    obtain ⟨-, ha0, hda, -⟩ := letter_spec a ha
    obtain ⟨-, hb0, hdb, -⟩ := letter_spec b hb
    obtain ⟨-, hc0, hdc, -⟩ := letter_spec c hc
    refine ⟨[byte0 (sextetOf a) (sextetOf b), byte1 (sextetOf b) (sextetOf c)], ?_⟩
    change [digit (sextet0 (byte0 _ _)), digit (sextet1 (byte0 _ _) (byte1 _ _)),
      digit (sextet2 (byte1 _ _) 0), '='] = _
    rw [sextet0_bytes ha0 hb0, sextet1_bytes hb0 hc0, sextet2_padded hc0 hspare, hda, hdb, hdc]
  | @three a b c d rest ha hb hc hd _ ih =>
    obtain ⟨-, ha0, hda, -⟩ := letter_spec a ha
    obtain ⟨-, hb0, hdb, -⟩ := letter_spec b hb
    obtain ⟨-, hc0, hdc, -⟩ := letter_spec c hc
    obtain ⟨-, hd0, hdd, -⟩ := letter_spec d hd
    obtain ⟨bytes, rfl⟩ := ih
    refine ⟨byte0 (sextetOf a) (sextetOf b) :: byte1 (sextetOf b) (sextetOf c) ::
      byte2 (sextetOf c) (sextetOf d) :: bytes, ?_⟩
    change digit (sextet0 (byte0 _ _)) :: digit (sextet1 (byte0 _ _) (byte1 _ _)) ::
      digit (sextet2 (byte1 _ _) (byte2 _ _)) :: digit (sextet3 (byte2 _ _)) :: encodeChunks bytes = _
    rw [sextet0_bytes ha0 hb0, sextet1_bytes hb0 hc0, sextet2_bytes hc0 hd0, sextet3_bytes hd0, hda, hdb,
      hdc, hdd]

theorem Canonical.not_isWhitespace {cs : List Char} (h : Canonical cs) :
    ∀ c ∈ cs, isWhitespace c = false := by
  have hletter : ∀ c ∈ alphabet, isWhitespace c = false := fun c hc => (letter_spec c hc).2.2.2
  have hpad : isWhitespace '=' = false := rfl
  induction h with
  | nil => simp
  | one ha hb _ => simp [hletter _ ha, hletter _ hb, hpad]
  | two ha hb hc _ => simp [hletter _ ha, hletter _ hb, hletter _ hc, hpad]
  | three ha hb hc hd _ ih =>
    simpa [hletter _ ha, hletter _ hb, hletter _ hc, hletter _ hd] using ih

/-! ### Whitespace -/

/-- The second text is the first with whitespace put into it. -/
inductive Spaced : List Char → List Char → Prop
  | nil : Spaced [] []
  | letter {cs ds : List Char} (c : Char) : Spaced cs ds → Spaced (c :: cs) (c :: ds)
  | space {cs ds : List Char} (c : Char) (hc : isWhitespace c = true) :
      Spaced cs ds → Spaced cs (c :: ds)

theorem Spaced.refl (cs : List Char) : Spaced cs cs := by
  induction cs with
  | nil => exact .nil
  | cons c cs ih => exact .letter c ih

theorem Spaced.filter_eq {cs ds : List Char} (h : Spaced cs ds) :
    (ds.filter fun c => !isWhitespace c) = cs.filter fun c => !isWhitespace c := by
  induction h with
  | nil => rfl
  | letter c _ ih => rw [List.filter_cons, List.filter_cons, ih]
  | space c hc _ ih => simpa [List.filter_cons, hc] using ih

/-- However whitespace is put into it, the text of some bytes decodes to them. -/
theorem Spaced.decodes {bytes : List UInt8} {s : String} (h : Spaced (encode bytes).toList s.toList) :
    decode s = .ok bytes := by
  rw [encode, String.toList_ofList] at h
  have hletters : ∀ c ∈ encodeChunks bytes, (!isWhitespace c) = true := by
    intro c hc
    simp [(canonical_encodeChunks bytes).not_isWhitespace c hc]
  refine decode_of_stripped ?_
  rw [stripped, h.filter_eq, List.filter_eq_self.mpr hletters]

theorem decode_encode (bytes : List UInt8) : decode (encode bytes) = .ok bytes :=
  (Spaced.refl _).decodes

/-! ### What the decoder accepts -/

/-- The decoder answers with the bytes that are encoded so, and refuses any other string. -/
def Exact (s : String) : Prop :=
  (∀ bytes, decode s = .ok bytes → (encode bytes).toList = stripped s) ∧
    ((∀ bytes, (encode bytes).toList ≠ stripped s) → ∃ e, decode s = .error e)

/-- ACCEPTS ONLY BASE64: the decoder is exact on a string iff the string is base64, or has a character
    other than `=` whose low byte is not in the alphabet. -/
theorem decode_exact_iff (s : String) : Exact s ↔
    Canonical (stripped s) ∨ ∃ c ∈ stripped s, c ≠ '=' ∧ asByte c ∉ charset := by
  have hrefused : (∃ e, decode s = .error e) ↔ ∃ c ∈ stripped s, c ≠ '=' ∧ asByte c ∉ charset := by
    simp only [← value_eq_none]
    exact decodeChars_error_iff (stripped s) _
  constructor
  · rintro ⟨haccepts, -⟩
    cases hs : decode s with
    | error e => exact Or.inr (hrefused.mp ⟨e, hs⟩)
    | ok bytes =>
      have htext := haccepts bytes hs
      rw [encode, String.toList_ofList] at htext
      exact Or.inl (htext ▸ canonical_encodeChunks bytes)
  · rintro (hcanonical | hletter)
    · obtain ⟨bytes, hbytes⟩ := hcanonical.encoded
      have hdecode := decode_of_stripped hbytes.symm
      refine ⟨fun bytes' h => ?_, fun hnone => ?_⟩
      · rw [hdecode] at h
        obtain rfl := Except.ok.inj h
        rw [encode, String.toList_ofList, hbytes]
      · refine absurd ?_ (hnone bytes)
        rw [encode, String.toList_ofList, hbytes]
    · obtain ⟨e, he⟩ := hrefused.mpr hletter
      refine ⟨fun bytes h => ?_, fun _ => ⟨e, he⟩⟩
      rw [he] at h
      cases h

theorem not_exact {s : String} {bytes : List UInt8} (hs : decode s = .ok bytes)
    (htext : encodeChunks bytes ≠ stripped s) : ¬ Exact s := by
  intro h
  have haccepts := h.1 bytes hs
  rw [encode, String.toList_ofList] at haccepts
  exact htext haccepts

/-- A letter outside ASCII, a misplaced `=`, an unfinished group and bits to spare are all let through. -/
theorem damaged_text_decodes :
    ¬ Exact "\u0141AAA" ∧ ¬ Exact "=AAA" ∧ ¬ Exact "AAAAA" ∧ ¬ Exact "AB==" :=
  ⟨@not_exact _ [0, 0, 0] (by rfl) (by decide +kernel),
   @not_exact _ [252, 0, 0] (by rfl) (by decide +kernel),
   @not_exact _ [0, 0, 0] (by rfl) (by decide +kernel),
   @not_exact _ [0] (by rfl) (by decide +kernel)⟩

end Equium.Miner.Base64
