import DownloadManager.Library.Format
import DownloadManager.Storage.Manifest
import Mathlib.Tactic.IntervalCases

/-!
# Manifests as JSON

What `serde_json` writes for a manifest, and a parser for it: a `Codec`. The parser
reads what the writer writes and not all of JSON; it is there to run the program on.
Texts are escaped as `serde_json` escapes them, and the text is encoded in UTF-8.
-/

namespace DownloadManager

namespace Json

/-- A hexadecimal digit. -/
def hexDigit (n : ℕ) : Char := Char.ofNat (if n < 10 then '0'.toNat + n else 'a'.toNat + (n - 10))

/-- The value of a hexadecimal digit. -/
def hexValue (c : Char) : Option ℕ :=
  if '0'.toNat ≤ c.toNat ∧ c.toNat ≤ '9'.toNat then some (c.toNat - '0'.toNat)
  else if 'a'.toNat ≤ c.toNat ∧ c.toNat ≤ 'f'.toNat then some (c.toNat - 'a'.toNat + 10)
  else none

/-- The characters with an escape of one letter. -/
def escapes : List (Char × Char) :=
  [('"', '"'), ('\\', '\\'), ('\n', 'n'), ('\r', 'r'), ('\t', 't'), ('\x08', 'b'), ('\x0c', 'f')]

/-- A character of a text, escaped where it has to be. -/
def escape (c : Char) : List Char :=
  match escapes.lookup c with
  | some letter => ['\\', letter]
  | none => if c.toNat < 32 then ['\\', 'u', '0', '0', hexDigit (c.toNat / 16), hexDigit (c.toNat % 16)] else [c]

/-- One more character in front. -/
def prepend (c : Char) (r : Option (List Char × List Char)) : Option (List Char × List Char) :=
  r.map fun (cs, rest) => (c :: cs, rest)

/-- The characters of a text up to its closing quote. -/
def parseText : List Char → Option (List Char × List Char)
  | [] => none
  | '"' :: input => some ([], input)
  | '\\' :: 'u' :: '0' :: '0' :: high :: low :: input =>
    (hexValue high).bind fun high => (hexValue low).bind fun low => prepend (Char.ofNat (16 * high + low)) (parseText input)
  | '\\' :: letter :: input =>
    (escapes.find? fun entry => entry.2 = letter).bind fun entry => prepend entry.1 (parseText input)
  | c :: input => if c.toNat < 32 then none else prepend c (parseText input)

theorem parseText_escape (c : Char) (input : List Char) :
    parseText (escape c ++ input) = prepend c (parseText input) := by
  rcases Nat.lt_or_ge c.toNat 32 with hc | hc
  · rw [← Char.ofNat_toNat c]
    interval_cases c.toNat <;> rfl
  by_cases hquote : c = '"'
  · subst hquote
    rfl
  by_cases hslash : c = '\\'
  · subst hslash
    rfl
  have hlookup : escapes.lookup c = none := by
    rw [List.lookup_eq_none_iff]
    intro entry hentry
    rw [bne_iff_ne]
    rintro rfl
    simp only [escapes, List.mem_cons, List.not_mem_nil, or_false] at hentry
    rcases hentry with rfl | rfl | rfl | rfl | rfl | rfl | rfl
    · exact hquote rfl
    · exact hslash rfl
    all_goals exact absurd hc (by decide)
  have hescape : escape c = [c] := by
    simp only [escape, hlookup, Nat.not_lt.mpr hc, if_false]
  have hparse : parseText (c :: input) = if c.toNat < 32 then none else prepend c (parseText input) := by
    conv_lhs => unfold parseText
    split <;> simp_all
  rw [hescape, List.singleton_append, hparse, if_neg (Nat.not_lt.mpr hc)]

/-- The text of a string. -/
def string : Format Char String where
  print s := '"' :: (s.toList.flatMap escape ++ ['"'])
  parse
    | '"' :: input => (parseText input).map fun (cs, rest) => (String.ofList cs, rest)
    | _ => none
  Follow _ := True
  parse_print s rest _ := by
    have h : ∀ cs : List Char, parseText (cs.flatMap escape ++ '"' :: rest) = some (cs, rest) := by
      intro cs
      induction cs with
      | nil => rfl
      | cons c cs ih =>
        rw [List.flatMap_cons, List.append_assoc, parseText_escape, ih]
        rfl
    simp [h]

/-- A number, which no digit may follow. One of more than 64 bits is read too, where `serde_json` refuses it. -/
def number : Format Char ℕ where
  print n := Nat.toDigits 10 n
  parse input :=
    match input.takeWhile Char.isDigit with
    | [] => none
    | digits => some (Nat.ofDigitChars 10 digits 0, input.dropWhile Char.isDigit)
  Follow rest := ∀ c, rest.head? = some c → c.isDigit = false
  parse_print n rest h := by
    have hdigits : ∀ c ∈ Nat.toDigits 10 n, c.isDigit = true :=
      fun c hc => Nat.isDigit_of_mem_toDigits (by decide) (by decide) hc
    have htake : rest.takeWhile Char.isDigit = [] ∧ rest.dropWhile Char.isDigit = rest := by
      cases rest with
      | nil => exact ⟨rfl, rfl⟩
      | cons c rest => simp [h c rfl]
    rw [List.takeWhile_append_of_pos hdigits, List.dropWhile_append_of_pos hdigits, htake.1, htake.2, List.append_nil]
    split
    · next hnil => exact absurd hnil (by simp)
    · rw [Nat.ofDigitChars_ten_toDigits]

theorem number_follow_cons {c : Char} (hc : c.isDigit = false) (rest : List Char) : number.Follow (c :: rest) := by
  intro d hd
  cases hd
  exact hc

/-- A number does not begin like `null`. -/
theorem strip_number (n : ℕ) (rest : List Char) : Format.strip "null".toList (number.print n ++ rest) = none := by
  change Format.strip ('n' :: "ull".toList) (Nat.toDigits 10 n ++ rest) = none
  cases h : Nat.toDigits 10 n with
  | nil => exact absurd h (by simp)
  | cons c cs =>
    have hc : c.isDigit = true :=
      Nat.isDigit_of_mem_toDigits (b := 10) (n := n) (by decide) (by decide) (h ▸ List.mem_cons_self)
    rw [List.cons_append, Format.strip, if_neg]
    rintro rfl
    exact absurd hc (by decide)

/-- `ByteRange`. -/
def byteRange : Format Char ByteRange :=
  (((number.after "\x7b\"start\":".toList).pair (number.after ",\"end\":".toList)
      fun _ _ _ => number_follow_cons (by decide) _).before "\x7d".toList
      fun _ => number_follow_cons (by decide) _).map (fun r => ⟨r.1, r.2⟩) (fun r => (r.start, r.stop)) fun _ => rfl

/-- `Vec<ByteRange>`, after its opening bracket. -/
def byteRanges : Format Char (List ByteRange) :=
  byteRange.list ',' ']' (by decide) (fun _ => ⟨trivial, trivial⟩) fun _ _ => rfl

/-- `Option<String>`. -/
def optionString : Format Char (Option String) := string.orElse "null".toList fun _ _ => rfl

/-- `Option<u64>`. -/
def optionNumber : Format Char (Option ℕ) := number.orElse "null".toList strip_number

/-- `Manifest`. -/
def manifest : Format Char Manifest :=
  ((string.after "\x7b\"url\":".toList).pair
    ((optionString.after ",\"etag\":".toList).pair
      ((optionString.after ",\"last_modified\":".toList).pair
        ((optionNumber.after ",\"total_length\":".toList).pair
          ((byteRanges.after ",\"completed_ranges\":[".toList).before "\x7d".toList fun _ => trivial)
          fun _ _ _ => number_follow_cons (by decide) _)
        fun _ _ _ => trivial)
      fun _ _ _ => trivial)
    fun _ _ _ => trivial).map
    (fun m => ⟨m.1, m.2.1, m.2.2.1, m.2.2.2.1, m.2.2.2.2⟩)
    (fun m => (m.url, m.etag, m.lastModified, m.totalLength, m.completedRanges)) fun _ => rfl

/-- What is printed is read, to the end. -/
theorem parse_manifest (m : Manifest) : manifest.parse (manifest.print m) = some (m, []) := by
  have h := manifest.parse_print m [] trivial
  rwa [List.append_nil] at h

/-! ### Bytes -/

/-- The characters of a text in UTF-8. -/
def decodeUtf8 : List UInt8 → Option (List Char)
  | [] => some []
  | b₀ :: rest =>
    if b₀.toNat < 0x80 then (decodeUtf8 rest).map (Char.ofNat b₀.toNat :: ·)
    else
      match rest with
      | [] => none
      | b₁ :: rest =>
        if b₀.toNat < 0xe0 then
          (decodeUtf8 rest).map (Char.ofNat ((b₀.toNat - 0xc0) * 64 + (b₁.toNat - 0x80)) :: ·)
        else
          match rest with
          | [] => none
          | b₂ :: rest =>
            if b₀.toNat < 0xf0 then
              (decodeUtf8 rest).map
                (Char.ofNat ((b₀.toNat - 0xe0) * 4096 + (b₁.toNat - 0x80) * 64 + (b₂.toNat - 0x80)) :: ·)
            else
              match rest with
              | [] => none
              | b₃ :: rest =>
                (decodeUtf8 rest).map
                  (Char.ofNat ((b₀.toNat - 0xf0) * 262144 + (b₁.toNat - 0x80) * 4096 + (b₂.toNat - 0x80) * 64 +
                    (b₃.toNat - 0x80)) :: ·)

theorem decodeUtf8_utf8EncodeChar (c : Char) (rest : List UInt8) :
    decodeUtf8 (String.utf8EncodeChar c ++ rest) = (decodeUtf8 rest).map (c :: ·) := by
  have hlt : c.val.toNat < 0x110000 := by
    have := c.valid
    simp only [UInt32.isValidChar, Nat.isValidChar] at this
    omega
  have htoNat : c.val.toNat = c.toNat := rfl
  have hval : ∀ n, n = c.val.toNat → Char.ofNat n = c := fun n hn => hn ▸ Char.ofNat_toNat c
  unfold String.utf8EncodeChar
  dsimp only
  split_ifs with h₁ h₂ h₃
  all_goals
    simp only [List.cons_append, List.nil_append]
    conv_lhs => rw [decodeUtf8.eq_def]
    dsimp only
  · rw [if_pos (by simp; omega), hval _ (by simp; omega)]
  · rw [if_neg (by simp; omega), if_pos (by simp; omega), hval _ (by simp; omega)]
  · rw [if_neg (by simp; omega), if_neg (by simp; omega), if_pos (by simp; omega), hval _ (by simp; omega)]
  · rw [if_neg (by simp; omega), if_neg (by simp; omega), if_neg (by simp; omega), hval _ (by simp; omega)]

theorem decodeUtf8_flatMap (cs : List Char) : decodeUtf8 (cs.flatMap String.utf8EncodeChar) = some cs := by
  induction cs with
  | nil => rfl
  | cons c cs ih => rw [List.flatMap_cons, decodeUtf8_utf8EncodeChar, ih, Option.map_some]

/-- No character but `NUL` has a zero byte in UTF-8. -/
theorem zero_notMem_utf8EncodeChar {c : Char} (hc : c ≠ '\x00') : 0 ∉ String.utf8EncodeChar c := by
  have hbyte : ∀ n, n % 256 ≠ 0 → (0 : UInt8) ≠ UInt8.ofNat n := by
    intro n hn h
    have := congrArg UInt8.toNat h
    simp only [UInt8.toNat_ofNat'] at this
    exact hn (by simpa using this.symm)
  have hzero : c.val.toNat ≠ 0 := by
    intro h
    exact hc (Char.ext (UInt32.toNat_inj.mp h))
  unfold String.utf8EncodeChar
  dsimp only
  split_ifs
  all_goals
    simp only [List.mem_cons, List.not_mem_nil, or_false, not_or]
  · exact hbyte _ (by omega)
  · exact ⟨hbyte _ (by omega), hbyte _ (by omega)⟩
  · exact ⟨hbyte _ (by omega), hbyte _ (by omega), hbyte _ (by omega)⟩
  · exact ⟨hbyte _ (by omega), hbyte _ (by omega), hbyte _ (by omega), hbyte _ (by omega)⟩

theorem nul_notMem_escape (c : Char) : '\x00' ∉ escape c := by
  unfold escape
  split
  · next letter h =>
    obtain ⟨before, after, hsplit, -⟩ := List.lookup_eq_some_iff.mp h
    have hmem : (c, letter) ∈ escapes := hsplit ▸ List.mem_append_right _ List.mem_cons_self
    have hletters : ∀ entry ∈ escapes, entry.2 ≠ '\x00' := by decide
    simp only [List.mem_cons, List.not_mem_nil, or_false, not_or]
    exact ⟨by decide, (hletters _ hmem).symm⟩
  · have hhex : ∀ n < 16, '\x00' ≠ hexDigit n := by decide
    split_ifs with hc
    · simp only [List.mem_cons, List.not_mem_nil, or_false, not_or]
      exact ⟨by decide, by decide, by decide, by decide, hhex _ (by omega), hhex _ (by omega)⟩
    · rw [List.mem_singleton]
      rintro rfl
      exact hc (by decide)

theorem nul_notMem_string (s : String) : '\x00' ∉ string.print s := by
  simp [string, nul_notMem_escape]

theorem nul_notMem_number (n : ℕ) : '\x00' ∉ number.print n := by
  intro h
  have : Char.isDigit '\x00' = true := Nat.isDigit_of_mem_toDigits (b := 10) (n := n) (by decide) (by decide) h
  exact absurd this (by decide)

theorem nul_notMem_byteRange (r : ByteRange) : '\x00' ∉ byteRange.print r := by
  simp [byteRange, nul_notMem_number]

theorem nul_notMem_byteRanges (rs : List ByteRange) : '\x00' ∉ byteRanges.print rs := by
  have htail : ∀ rs : List ByteRange, '\x00' ∉ byteRange.printTail ',' ']' rs := by
    intro rs
    induction rs with
    | nil => simp [Format.printTail]
    | cons r rs ih => simp [Format.printTail, nul_notMem_byteRange, ih]
  cases rs with
  | nil => simp [byteRanges, Format.list]
  | cons r rs => simp [byteRanges, Format.list, nul_notMem_byteRange, htail]

theorem nul_notMem_manifest (m : Manifest) : '\x00' ∉ manifest.print m := by
  have hstring : ∀ s, '\x00' ∉ optionString.print s := by
    intro s
    cases s <;> simp [optionString, nul_notMem_string]
  have hnumber : ∀ n, '\x00' ∉ optionNumber.print n := by
    intro n
    cases n <;> simp [optionNumber, nul_notMem_number]
  simp [manifest, nul_notMem_string, hstring, hnumber, nul_notMem_byteRanges]

/-- `serde_json`, as far as the storage uses it. -/
def codec : Codec where
  toVec m := (manifest.print m).flatMap String.utf8EncodeChar
  fromSlice bytes :=
    if 0 ∈ bytes then none
    else (decodeUtf8 bytes).bind fun cs => (manifest.parse cs).bind fun (m, rest) => if rest = [] then some m else none
  fromSlice_toVec m := by
    have hzero : 0 ∉ (manifest.print m).flatMap String.utf8EncodeChar := by
      intro h
      obtain ⟨c, hc, h⟩ := List.mem_flatMap.mp h
      exact zero_notMem_utf8EncodeChar (fun h => nul_notMem_manifest m (h ▸ hc)) h
    rw [if_neg hzero, decodeUtf8_flatMap]
    simp [parse_manifest]
  fromSlice_of_zero_mem bytes h := if_pos h

end Json

end DownloadManager
