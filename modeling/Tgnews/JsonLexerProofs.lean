import Tgnews.SerializerProofs

/-! # Reading a JSON text: the lexer (`lexer.hpp`)

    The lexer of the JSON library cuts a text into tokens.  It checks the strings byte by
    byte and turns the escapes back into bytes, and it reads numbers with a machine of
    eight states.  The route:

    * `tailRanges_eq` — the ranges it checks are those the decoder of `Utf8` wants, and
      `codepointBytes_eq` — what it adds for an escape is an encoding;
    * `scanString_valid` — so a string token is valid UTF-8, whatever the text;
    * `scanString_escape` — and the escaped form of a valid string is read back. -/

namespace TgnewsJsonLexer

open CxxText TgnewsSerializer

/-! ## Tokens -/

/-- `token_type`, with what the getters give for it; a number that is not finite has no
    value. -/
inductive Token where
  | literalTrue
  | literalFalse
  | literalNull
  | valueString (s : Str)
  | valueUnsigned (n : Nat)
  | valueInteger (n : Int)
  | valueFloat (q : Option ℚ)
  | beginArray
  | beginObject
  | endArray
  | endObject
  | nameSeparator
  | valueSeparator
  | parseError (message : Str)
  | endOfInput
  deriving DecidableEq

/-! ## Strings -/

/-- The digit that `get_codepoint` reads. -/
def hexValue (c : Char) : Option Nat :=
  if '0' ≤ c ∧ c ≤ '9' then some (c.toNat - 0x30)
  else if 'A' ≤ c ∧ c ≤ 'F' then some (c.toNat - 0x37)
  else if 'a' ≤ c ∧ c ≤ 'f' then some (c.toNat - 0x57)
  else none

/-- `get_codepoint`: four digits, and what follows them. -/
def getCodepoint : Str → Option (Nat × Str)
  | c₁ :: c₂ :: c₃ :: c₄ :: rest => do
      let d₁ ← hexValue c₁
      let d₂ ← hexValue c₂
      let d₃ ← hexValue c₃
      let d₄ ← hexValue c₄
      return ((d₁ <<< 12) + (d₂ <<< 8) + (d₃ <<< 4) + d₄, rest)
  | _ => none

/-- What is added for a code point. -/
def codepointBytes (codepoint : Nat) : List Nat :=
  if codepoint < 0x80 then [codepoint]
  else if codepoint ≤ 0x7FF then
    [0xC0 ||| (codepoint >>> 6), 0x80 ||| (codepoint &&& 0x3F)]
  else if codepoint ≤ 0xFFFF then
    [0xE0 ||| (codepoint >>> 12), 0x80 ||| ((codepoint >>> 6) &&& 0x3F),
      0x80 ||| (codepoint &&& 0x3F)]
  else
    [0xF0 ||| (codepoint >>> 18), 0x80 ||| ((codepoint >>> 12) &&& 0x3F),
      0x80 ||| ((codepoint >>> 6) &&& 0x3F), 0x80 ||| (codepoint &&& 0x3F)]

/-- What follows `\u`: a code point, or two that make one. -/
def scanUnicode (input : Str) : Except Str (Str × Str) :=
  match getCodepoint input with
  | none => .error "invalid string: '\\u' must be followed by 4 hex digits".toList
  | some (codepoint₁, rest) =>
      if 0xD800 ≤ codepoint₁ ∧ codepoint₁ ≤ 0xDBFF then
        match rest with
        | '\\' :: 'u' :: rest =>
            match getCodepoint rest with
            | none => .error "invalid string: '\\u' must be followed by 4 hex digits".toList
            | some (codepoint₂, rest) =>
                if 0xDC00 ≤ codepoint₂ ∧ codepoint₂ ≤ 0xDFFF then
                  .ok ((codepointBytes ((codepoint₁ <<< 10) + codepoint₂ - 0x35FDC00)).map
                    Char.ofNat, rest)
                else
                  .error ("invalid string: surrogate U+DC00..U+DFFF must be followed by " ++
                    "U+DC00..U+DFFF").toList
        | _ =>
            .error ("invalid string: surrogate U+DC00..U+DFFF must be followed by " ++
              "U+DC00..U+DFFF").toList
      else if 0xDC00 ≤ codepoint₁ ∧ codepoint₁ ≤ 0xDFFF then
        .error "invalid string: surrogate U+DC00..U+DFFF must follow U+D800..U+DBFF".toList
      else .ok ((codepointBytes codepoint₁).map Char.ofNat, rest)

/-- What follows a backslash: what is added, and the text behind it. -/
def scanEscape : Str → Except Str (Str × Str)
  | '"' :: rest => .ok (['"'], rest)
  | '\\' :: rest => .ok (['\\'], rest)
  | '/' :: rest => .ok (['/'], rest)
  | 'b' :: rest => .ok ([Char.ofNat 0x08], rest)
  | 'f' :: rest => .ok ([Char.ofNat 0x0C], rest)
  | 'n' :: rest => .ok (['\n'], rest)
  | 'r' :: rest => .ok (['\r'], rest)
  | 't' :: rest => .ok (['\t'], rest)
  | 'u' :: rest => scanUnicode rest
  | _ => .error "invalid string: forbidden character after backslash".toList

/-- The ranges of the bytes that have to follow a first byte. -/
def tailRanges (byte : Nat) : Option (List (Nat × Nat)) :=
  if 0xC2 ≤ byte ∧ byte ≤ 0xDF then some [(0x80, 0xBF)]
  else if byte = 0xE0 then some [(0xA0, 0xBF), (0x80, 0xBF)]
  else if 0xE1 ≤ byte ∧ byte ≤ 0xEC ∨ byte = 0xEE ∨ byte = 0xEF then
    some [(0x80, 0xBF), (0x80, 0xBF)]
  else if byte = 0xED then some [(0x80, 0x9F), (0x80, 0xBF)]
  else if byte = 0xF0 then some [(0x90, 0xBF), (0x80, 0xBF), (0x80, 0xBF)]
  else if 0xF1 ≤ byte ∧ byte ≤ 0xF3 then some [(0x80, 0xBF), (0x80, 0xBF), (0x80, 0xBF)]
  else if byte = 0xF4 then some [(0x80, 0x8F), (0x80, 0xBF), (0x80, 0xBF)]
  else none

/-- `next_byte_in_range`: the bytes read, one for each range, and what follows them. -/
def nextByteInRange : List (Nat × Nat) → Str → Option (Str × Str)
  | [], rest => some ([], rest)
  | (lo, hi) :: ranges, c :: rest =>
      if lo ≤ byteOf c ∧ byteOf c ≤ hi then
        (nextByteInRange ranges rest).map fun (bytes, rest) => (c :: bytes, rest)
      else none
  | _ :: _, [] => none

/-- The names of the control characters. -/
def controlNames : List Str := [
  "NUL".toList, "SOH".toList, "STX".toList, "ETX".toList, "EOT".toList, "ENQ".toList,
  "ACK".toList, "BEL".toList, "BS".toList, "HT".toList, "LF".toList, "VT".toList, "FF".toList,
  "CR".toList, "SO".toList, "SI".toList, "DLE".toList, "DC1".toList, "DC2".toList,
  "DC3".toList, "DC4".toList, "NAK".toList, "SYN".toList, "ETB".toList, "CAN".toList,
  "EM".toList, "SUB".toList, "ESC".toList, "FS".toList, "GS".toList, "RS".toList, "US".toList]

/-- The short escape of a control character, where it has one. -/
def shortEscape : Nat → Str
  | 0x08 => " or \\b".toList
  | 0x09 => " or \\t".toList
  | 0x0A => " or \\n".toList
  | 0x0C => " or \\f".toList
  | 0x0D => " or \\r".toList
  | _ => []

/-- The message for a control character in a string. -/
def controlMessage (byte : Nat) : Str :=
  let digits := ['0', '0', Nat.digitChar (byte / 16), (Nat.digitChar (byte % 16)).toUpper]
  "invalid string: control character U+".toList ++ digits ++ " (".toList
    ++ controlNames.getD byte [] ++ ") must be escaped to \\u".toList ++ digits
    ++ shortEscape byte

/-- What one turn of the loop of `scan_string` does. -/
inductive Turn where
  | close (rest : Str)
  | add (bytes rest : Str)
  | error (message : Str)

/-- One turn of the loop of `scan_string`. -/
def scanTurn : Str → Turn
  | [] => .error "invalid string: missing closing quote".toList
  | c :: rest =>
      if c = '"' then .close rest
      else if c = '\\' then
        match scanEscape rest with
        | .ok (bytes, rest) => .add bytes rest
        | .error message => .error message
      else if byteOf c < 0x20 then .error (controlMessage (byteOf c))
      else if byteOf c < 0x80 then .add [c] rest
      else
        match (tailRanges (byteOf c)).bind fun ranges => nextByteInRange ranges rest with
        | some (bytes, rest) => .add (c :: bytes) rest
        | none => .error "invalid string: ill-formed UTF-8 byte".toList

/-! ### Every turn reads something -/

/-- An escaped code point takes four characters. -/
theorem length_getCodepoint {input rest : Str} {n : Nat}
    (h : getCodepoint input = some (n, rest)) : rest.length + 4 = input.length := by
  unfold getCodepoint at h
  split at h
  · obtain ⟨d₁, -, h⟩ := Option.bind_eq_some_iff.mp h
    obtain ⟨d₂, -, h⟩ := Option.bind_eq_some_iff.mp h
    obtain ⟨d₃, -, h⟩ := Option.bind_eq_some_iff.mp h
    obtain ⟨d₄, -, h⟩ := Option.bind_eq_some_iff.mp h
    obtain ⟨-, rfl⟩ := Prod.mk.inj (Option.some.inj h)
    rfl
  · cases h

/-- So `\u` reads on, whether or not a second half follows. -/
theorem length_scanUnicode {input bytes rest : Str} (h : scanUnicode input = .ok (bytes, rest)) :
    rest.length < input.length := by
  unfold scanUnicode at h
  split at h
  · cases h
  · rename_i n r₁ hfirst
    have hlen := length_getCodepoint hfirst
    split_ifs at h
    · split at h
      · split at h
        · cases h
        · rename_i hsecond
          have hlen₂ := length_getCodepoint hsecond
          split_ifs at h
          obtain ⟨-, rfl⟩ := Prod.mk.inj (Except.ok.inj h)
          simp only [List.length_cons] at hlen
          omega
      · cases h
    · obtain ⟨-, rfl⟩ := Prod.mk.inj (Except.ok.inj h)
      omega

theorem length_scanEscape {input bytes rest : Str} (h : scanEscape input = .ok (bytes, rest)) :
    rest.length < input.length := by
  unfold scanEscape at h
  split at h
  all_goals first
    | exact (length_scanUnicode h).trans (Nat.lt_succ_self _)
    | cases h <;> exact Nat.lt_succ_self _

theorem length_nextByteInRange {ranges : List (Nat × Nat)} {input bytes rest : Str}
    (h : nextByteInRange ranges input = some (bytes, rest)) :
    rest.length + bytes.length = input.length := by
  induction ranges generalizing input bytes with
  | nil =>
      obtain ⟨rfl, rfl⟩ := Prod.mk.inj (Option.some.inj h)
      rfl
  | cons range ranges ih =>
      cases input with
      | nil => cases h
      | cons c input =>
          rw [nextByteInRange] at h
          split_ifs at h
          obtain ⟨⟨bytes', rest'⟩, hrest, heq⟩ := Option.map_eq_some_iff.mp h
          obtain ⟨rfl, rfl⟩ := Prod.mk.inj heq
          have := ih hrest
          simp only [List.length_cons]
          omega

/-- A turn of `scan_string` that adds bytes has read something. -/
theorem length_scanTurn {input bytes rest : Str} (h : scanTurn input = .add bytes rest) :
    rest.length < input.length := by
  cases input with
  | nil => cases h
  | cons c input =>
      rw [scanTurn] at h
      split_ifs at h
      · split at h
        · rename_i hescape
          cases h
          exact (length_scanEscape hescape).trans (Nat.lt_succ_self _)
        · cases h
      · cases h
        exact Nat.lt_succ_self _
      · split at h
        · rename_i hbind
          obtain ⟨ranges, -, hbytes⟩ := Option.bind_eq_some_iff.mp hbind
          have := length_nextByteInRange hbytes
          cases h
          simp only [List.length_cons]
          omega
        · cases h

/-- `scan_string`, behind the opening quote; `buffer` holds what was added so far. -/
def scanString (buffer input : Str) : Token × Str :=
  match _h : scanTurn input with
  | .close rest => (.valueString buffer, rest)
  | .add bytes rest => scanString (buffer ++ bytes) rest
  | .error message => (.parseError message, [])
termination_by input.length
decreasing_by exact length_scanTurn _h

/-! ### What is read is valid -/

/-- **An escape adds an encoding.** -/
theorem codepointBytes_eq (c : Char) : codepointBytes c.toNat = Utf8.encode c := by
  have hmax : c.toNat < 0x110000 := by
    have := c.valid
    simp only [UInt32.isValidChar, Nat.isValidChar] at this
    show c.val.toNat < _
    omega
  have hlow : ∀ n, n &&& 0x3F = n % 64 := fun n => Nat.and_two_pow_sub_one_eq_mod n 6
  have hC0 : ∀ n < 64, 0xC0 ||| n = 0xC0 + n := fun n hn =>
    (Nat.two_pow_add_eq_or_of_lt (show n < 2 ^ 6 from hn) 3).symm
  have h80 : ∀ n < 64, 0x80 ||| n = 0x80 + n := fun n hn =>
    (Nat.two_pow_add_eq_or_of_lt (show n < 2 ^ 6 from hn) 2).symm
  have hE0 : ∀ n < 16, 0xE0 ||| n = 0xE0 + n := fun n hn =>
    (Nat.two_pow_add_eq_or_of_lt (show n < 2 ^ 4 from hn) 14).symm
  have hF0 : ∀ n < 8, 0xF0 ||| n = 0xF0 + n := fun n hn =>
    (Nat.two_pow_add_eq_or_of_lt (show n < 2 ^ 3 from hn) 30).symm
  rw [codepointBytes, Utf8.encode_eq]
  simp only [hlow, Nat.shiftRight_eq_div_pow]
  by_cases h1 : c.toNat ≤ 0x7F
  · rw [if_pos (by omega), if_pos h1]
  · rw [if_neg (by omega), if_neg h1]
    by_cases h2 : c.toNat ≤ 0x7FF
    · rw [if_pos h2, if_pos h2, hC0 _ (by omega), h80 _ (by omega)]
      simp only [List.cons.injEq, and_true]
      constructor <;> omega
    · rw [if_neg h2, if_neg h2]
      by_cases h3 : c.toNat ≤ 0xFFFF
      · rw [if_pos h3, if_pos h3, hE0 _ (by omega), h80 _ (by omega), h80 _ (by omega)]
        simp only [List.cons.injEq, and_true]
        refine ⟨?_, ?_, ?_⟩ <;> omega
      · rw [if_neg h3, if_neg h3, hF0 _ (by omega), h80 _ (by omega), h80 _ (by omega),
          h80 _ (by omega)]
        simp only [List.cons.injEq, and_true]
        refine ⟨?_, ?_, ?_, ?_⟩ <;> omega

/-- What `Utf8.encode` gives are bytes. -/
theorem encode_lt (c : Char) : ∀ b ∈ Utf8.encode c, b < 256 := by
  intro b hb
  obtain ⟨byte, -, rfl⟩ := List.mem_map.mp hb
  exact byte.toNat_lt

/-- A byte as a character of the model, and back. -/
theorem byteOf_ofNat {b : Nat} (h : b < 256) : byteOf (Char.ofNat b) = b := by
  have hval : (Char.ofNat b).toNat = b := by
    rw [Char.ofNat, dif_pos (Or.inl (by omega))]
    rfl
  rw [byteOf, hval, Nat.mod_eq_of_lt h]

/-- The bytes of a scalar value are valid. -/
theorem validUtf8_codepoint {v : Nat} (h : v < 0xD800 ∨ 0xDFFF < v ∧ v < 0x110000) :
    ValidUtf8 ((codepointBytes v).map Char.ofNat) := by
  obtain ⟨c, rfl⟩ := Utf8.exists_char h
  rw [codepointBytes_eq, ValidUtf8, List.map_map]
  refine ⟨[c], ?_⟩
  rw [List.flatMap_singleton]
  refine (List.map_congr_left fun b hb => ?_).trans (List.map_id _)
  exact byteOf_ofNat (encode_lt c b hb)

theorem hexValue_lt {c : Char} {d : Nat} (h : hexValue c = some d) : d < 16 := by
  unfold hexValue at h
  split_ifs at h with h1 h2 h3
  all_goals
    obtain rfl := Option.some.inj h
  · have : c.toNat ≤ '9'.toNat := h1.2
    have h9 : '9'.toNat = 0x39 := rfl
    omega
  · have : c.toNat ≤ 'F'.toNat := h2.2
    have hF : 'F'.toNat = 0x46 := rfl
    omega
  · have : c.toNat ≤ 'f'.toNat := h3.2
    have hf : 'f'.toNat = 0x66 := rfl
    omega

/-- Four digits are below `0x10000`. -/
theorem getCodepoint_lt {input rest : Str} {n : Nat} (h : getCodepoint input = some (n, rest)) :
    n < 0x10000 := by
  unfold getCodepoint at h
  split at h
  · obtain ⟨d₁, h₁, h⟩ := Option.bind_eq_some_iff.mp h
    obtain ⟨d₂, h₂, h⟩ := Option.bind_eq_some_iff.mp h
    obtain ⟨d₃, h₃, h⟩ := Option.bind_eq_some_iff.mp h
    obtain ⟨d₄, h₄, h⟩ := Option.bind_eq_some_iff.mp h
    obtain ⟨rfl, -⟩ := Prod.mk.inj (Option.some.inj h)
    have := hexValue_lt h₁
    have := hexValue_lt h₂
    have := hexValue_lt h₃
    have := hexValue_lt h₄
    simp only [Nat.shiftLeft_eq]
    omega
  · cases h

/-- **A unicode escape adds valid bytes**: surrogates are taken in pairs or refused. -/
theorem validUtf8_scanUnicode {input bytes rest : Str}
    (h : scanUnicode input = .ok (bytes, rest)) : ValidUtf8 bytes := by
  unfold scanUnicode at h
  split at h
  · cases h
  · rename_i n r₁ hfirst
    have hlt := getCodepoint_lt hfirst
    split_ifs at h with hhigh hlow
    · split at h
      · split at h
        · cases h
        · split_ifs at h
          obtain ⟨rfl, -⟩ := Prod.mk.inj (Except.ok.inj h)
          refine validUtf8_codepoint ?_
          simp only [Nat.shiftLeft_eq]
          omega
      · cases h
    · obtain ⟨rfl, -⟩ := Prod.mk.inj (Except.ok.inj h)
      exact validUtf8_codepoint (by omega)

/-- An escape sequence adds valid UTF-8: the surrogates are paired or refused. -/
theorem validUtf8_scanEscape {input bytes rest : Str} (h : scanEscape input = .ok (bytes, rest)) :
    ValidUtf8 bytes := by
  unfold scanEscape at h
  split at h
  all_goals first
    | exact validUtf8_scanUnicode h
    | cases h <;> decide +kernel

/-- **The ranges are those the decoder wants.** -/
theorem tailRanges_eq : ∀ byte < 256, 0x80 ≤ byte →
    tailRanges byte = (Utf8.first byte).map fun w =>
      (w.lo, w.hi) :: List.replicate (w.count - 1) (0x80, 0xBF) := by
  decide +kernel

/-- A byte that starts a longer character asks for more of them. -/
theorem count_first : ∀ byte < 256, 0x80 ≤ byte → ∀ w ∈ Utf8.first byte, w.count ≠ 0 := by
  decide +kernel

/-- The first of the ranges takes one byte that is in it. -/
theorem nextByteInRange_cons_iff {lo hi : Nat} {ranges : List (Nat × Nat)}
    {input bytes rest : Str} :
    nextByteInRange ((lo, hi) :: ranges) input = some (bytes, rest) ↔
      ∃ c input' bytes', input = c :: input' ∧ bytes = c :: bytes'
        ∧ (lo ≤ byteOf c ∧ byteOf c ≤ hi)
        ∧ nextByteInRange ranges input' = some (bytes', rest) := by
  constructor
  · intro h
    cases input with
    | nil => cases h
    | cons c input =>
        rw [nextByteInRange] at h
        split_ifs at h with hrange
        obtain ⟨⟨bytes', rest'⟩, hrest, heq⟩ := Option.map_eq_some_iff.mp h
        obtain ⟨rfl, rfl⟩ := Prod.mk.inj heq
        exact ⟨c, input, bytes', rfl, rfl, hrange, hrest⟩
  · rintro ⟨c, input, bytes, rfl, rfl, hrange, hrest⟩
    rw [nextByteInRange, if_pos hrange, hrest]
    rfl

/-- **Bytes in range are what the decoder wants.** -/
theorem nextByteInRange_accepts {n lo hi : Nat} {input bytes rest : Str} :
    nextByteInRange ((lo, hi) :: List.replicate n (0x80, 0xBF)) input = some (bytes, rest) ↔
      input = bytes ++ rest ∧ bytes.length = n + 1
        ∧ Utf8.Accepts ⟨n + 1, lo, hi⟩ (bytes.map byteOf) := by
  induction n generalizing lo hi input bytes with
  | zero =>
      rw [nextByteInRange_cons_iff]
      constructor
      · rintro ⟨c, input, bytes, rfl, rfl, hrange, hrest⟩
        obtain ⟨rfl, rfl⟩ := Prod.mk.inj (Option.some.inj hrest)
        exact ⟨rfl, rfl, Utf8.accepts_want_iff.mpr
          ⟨_, _, rfl, hrange, Utf8.accepts_nil_iff.mpr rfl⟩⟩
      · rintro ⟨rfl, hlen, haccepts⟩
        obtain ⟨c, rfl⟩ := List.length_eq_one_iff.mp hlen
        obtain ⟨b, bs, heq, hrange, -⟩ := Utf8.accepts_want_iff.mp haccepts
        obtain ⟨rfl, -⟩ := List.cons.inj heq
        exact ⟨c, rest, [], rfl, rfl, hrange, rfl⟩
  | succ n ih =>
      rw [List.replicate_succ, nextByteInRange_cons_iff]
      constructor
      · rintro ⟨c, input, bytes, rfl, rfl, hrange, hrest⟩
        obtain ⟨rfl, hlen, haccepts⟩ := ih.mp hrest
        exact ⟨rfl, by rw [List.length_cons, hlen], Utf8.accepts_want_iff.mpr
          ⟨_, _, rfl, hrange, haccepts⟩⟩
      · rintro ⟨rfl, hlen, haccepts⟩
        obtain ⟨c, bytes, rfl⟩ := List.exists_cons_of_length_eq_add_one hlen
        obtain ⟨b, bs, heq, hrange, htail⟩ := Utf8.accepts_want_iff.mp haccepts
        obtain ⟨rfl, rfl⟩ := List.cons.inj heq
        exact ⟨c, bytes ++ rest, bytes, rfl, rfl, hrange,
          ih.mpr ⟨rfl, Nat.succ.inj hlen, htail⟩⟩

/-- **A byte past ASCII, with what follows it.** -/
theorem scanTail_iff {c : Char} (hc : 0x80 ≤ byteOf c) {input bytes rest : Str} :
    (tailRanges (byteOf c)).bind (fun ranges => nextByteInRange ranges input)
        = some (bytes, rest) ↔
      ∃ w, Utf8.first (byteOf c) = some w ∧ input = bytes ++ rest ∧ bytes.length = w.count
        ∧ Utf8.Accepts w (bytes.map byteOf) := by
  rw [tailRanges_eq _ (byteOf_lt c) hc]
  cases hfirst : Utf8.first (byteOf c) with
  | none => simp
  | some w =>
      have hcount := count_first _ (byteOf_lt c) hc w hfirst
      obtain ⟨n, lo, hi⟩ := w
      obtain ⟨n, rfl⟩ := Nat.exists_eq_succ_of_ne_zero hcount
      rw [Option.map_some, Option.bind_some, Nat.succ_sub_one, nextByteInRange_accepts]
      simp

/-- **A turn adds valid bytes.** -/
theorem validUtf8_scanTurn {input bytes rest : Str} (h : scanTurn input = .add bytes rest) :
    ValidUtf8 bytes := by
  cases input with
  | nil => cases h
  | cons c input =>
      rw [scanTurn] at h
      split_ifs at h with hquote hslash hcontrol hascii
      · split at h
        · rename_i hescape
          cases h
          exact validUtf8_scanEscape hescape
        · cases h
      · cases h
        refine (Utf8.accepts_iff _).mp (Utf8.accepts_cons_iff.mpr ⟨Utf8.tails 0, ?_, ?_⟩)
        · exact if_pos (Nat.le_of_lt_succ hascii)
        · exact Utf8.accepts_nil_iff.mpr rfl
      · split at h
        · rename_i hbind
          cases h
          obtain ⟨w, hfirst, -, -, haccepts⟩ := (scanTail_iff (not_lt.mp hascii)).mp hbind
          exact (Utf8.accepts_iff _).mp (Utf8.accepts_cons_iff.mpr ⟨w, hfirst, haccepts⟩)
        · cases h

/-- **A string token is valid UTF-8**, whatever the text. -/
theorem scanString_valid {buffer input s rest : Str} (hbuffer : ValidUtf8 buffer)
    (h : scanString buffer input = (.valueString s, rest)) : ValidUtf8 s := by
  fun_induction scanString buffer input with
  | case1 buffer input rest' hturn =>
      obtain ⟨heq, -⟩ := Prod.mk.inj h
      rw [← Token.valueString.inj heq]
      exact hbuffer
  | case2 buffer input bytes rest' hturn ih =>
      refine ih ?_ h
      rw [ValidUtf8, List.map_append]
      exact hbuffer.append (validUtf8_scanTurn hturn)
  | case3 buffer input message hturn => cases (Prod.mk.inj h).1

/-! ### An escaped string is read back -/

/-- A string of the program: its characters are bytes. -/
def IsBytes (s : Str) : Prop := ∀ c ∈ s, c.toNat < 256

instance (s : Str) : Decidable (IsBytes s) :=
  decidable_of_iff (s.all (fun c => c.toNat < 256) = true) (by simp [IsBytes])

theorem byteOf_eq_toNat {c : Char} (h : c.toNat < 256) : byteOf c = c.toNat :=
  Nat.mod_eq_of_lt h

theorem hexValue_digitChar : ∀ d < 16, hexValue (Nat.digitChar d) = some d := by decide

/-- The four digits that `escape` writes are read back. -/
theorem getCodepoint_hex4 {n : Nat} (h : n < 0x10000) (rest : Str) :
    getCodepoint ((hex4 n).drop 2 ++ rest) = some (n, rest) := by
  have h₁ := hexValue_digitChar (n / 4096 % 16) (Nat.mod_lt _ (by norm_num))
  have h₂ := hexValue_digitChar (n / 256 % 16) (Nat.mod_lt _ (by norm_num))
  have h₃ := hexValue_digitChar (n / 16 % 16) (Nat.mod_lt _ (by norm_num))
  have h₄ := hexValue_digitChar (n % 16) (Nat.mod_lt _ (by norm_num))
  show (hexValue (Nat.digitChar (n / 4096 % 16))).bind _ = _
  rw [h₁, Option.bind_some]
  show (hexValue (Nat.digitChar (n / 256 % 16))).bind _ = _
  rw [h₂, Option.bind_some]
  show (hexValue (Nat.digitChar (n / 16 % 16))).bind _ = _
  rw [h₃, Option.bind_some]
  show (hexValue (Nat.digitChar (n % 16))).bind _ = _
  rw [h₄, Option.bind_some]
  refine congrArg (fun m => some (m, rest)) ?_
  simp only [Nat.shiftLeft_eq]
  omega

/-- **The escape of an ASCII character is read back** in one turn. -/
theorem scanTurn_escapeChar {c : Char} (hc : c.toNat < 0x80) (rest : Str) :
    scanTurn (escapeChar c ++ rest) = .add [c] rest := by
  have hbyte : byteOf c = c.toNat := byteOf_eq_toNat (by omega)
  have hofNat : ∀ {n}, c.toNat = n → c = Char.ofNat n := fun h => by
    rw [← h, Char.ofNat_toNat]
  rw [escapeChar, hbyte]
  unfold escapeCodepoint
  split
  case h_1 h => rw [hofNat h]; rfl
  case h_2 h => rw [hofNat h]; rfl
  case h_3 h => rw [hofNat h]; rfl
  case h_4 h => rw [hofNat h]; rfl
  case h_5 h => rw [hofNat h]; rfl
  case h_6 h => rw [hofNat h]; rfl
  case h_7 h => rw [hofNat h]; rfl
  case h_8 =>
    split_ifs with hcontrol
    · -- a control character without a short escape
      have hescape : scanEscape ('u' :: ((hex4 c.toNat).drop 2 ++ rest)) = .ok ([c], rest) := by
        show scanUnicode ((hex4 c.toNat).drop 2 ++ rest) = _
        rw [scanUnicode, getCodepoint_hex4 (by omega)]
        simp only
        rw [if_neg (by omega), if_neg (by omega), codepointBytes, if_pos hc, List.map_singleton,
          Char.ofNat_toNat]
      show scanTurn ('\\' :: 'u' :: ((hex4 c.toNat).drop 2 ++ rest)) = _
      rw [scanTurn, if_neg (by decide), if_pos rfl, hescape]
    · have hquote : c ≠ '"' := by
        rintro rfl
        simp at *
      have hslash : c ≠ '\\' := by
        rintro rfl
        simp at *
      rw [List.singleton_append, scanTurn, if_neg hquote, if_neg hslash, if_neg (by omega),
        if_pos (by omega)]

/-- What the decoder accepts once it wants more bytes begins with those. -/
theorem exists_tail {n lo hi : Nat} (hlo : 0x80 ≤ lo) {s : Str}
    (h : Utf8.Accepts ⟨n + 1, lo, hi⟩ (s.map byteOf)) :
    ∃ u rest, s = u ++ rest ∧ u.length = n + 1
      ∧ Utf8.Accepts ⟨n + 1, lo, hi⟩ (u.map byteOf) ∧ (∀ c ∈ u, 0x80 ≤ byteOf c)
      ∧ Utf8.Accepts (Utf8.tails 0) (rest.map byteOf) := by
  induction n generalizing lo hi s with
  | zero =>
      obtain ⟨b, bs, heq, hrange, hrest⟩ := Utf8.accepts_want_iff.mp h
      obtain ⟨c, rest, rfl, rfl, rfl⟩ := List.map_eq_cons_iff.mp heq
      refine ⟨[c], rest, rfl, rfl, ?_, ?_, hrest⟩
      · exact Utf8.accepts_want_iff.mpr ⟨_, _, rfl, hrange, Utf8.accepts_nil_iff.mpr rfl⟩
      · intro d hd
        rw [List.mem_singleton.mp hd]
        omega
  | succ n ih =>
      obtain ⟨b, bs, heq, hrange, hrest⟩ := Utf8.accepts_want_iff.mp h
      obtain ⟨c, s, rfl, rfl, rfl⟩ := List.map_eq_cons_iff.mp heq
      obtain ⟨u, rest, rfl, hlen, haccepts, hhigh, htail⟩ := ih (Nat.le_refl 0x80) hrest
      refine ⟨c :: u, rest, rfl, by rw [List.length_cons, hlen], ?_, ?_, htail⟩
      · exact Utf8.accepts_want_iff.mpr ⟨_, _, rfl, hrange, haccepts⟩
      · intro d hd
        rcases List.mem_cons.mp hd with rfl | hd
        · omega
        · exact hhigh d hd

/-- Bytes above ASCII are left as they are. -/
theorem escape_of_high {u : Str} (h : ∀ c ∈ u, 0x80 ≤ byteOf c) : escape u = u := by
  induction u with
  | nil => rfl
  | cons c u ih =>
      have hrest := ih fun d hd => h d (List.mem_cons_of_mem _ hd)
      rw [escape] at hrest ⊢
      rw [List.flatMap_cons, hrest, escapeChar, escapeCodepoint_of_le (h c List.mem_cons_self)]
      rfl

/-- Escaping goes byte by byte. -/
theorem escape_append (s t : Str) : escape (s ++ t) = escape s ++ escape t :=
  List.flatMap_append

/-- **The bytes of a character past ASCII are read** in one turn. -/
theorem scanTurn_high {c : Char} {u : Str} {w : Utf8.Want} (hc : 0x80 ≤ byteOf c)
    (hchar : c.toNat < 256) (hfirst : Utf8.first (byteOf c) = some w) (hlen : u.length = w.count)
    (haccepts : Utf8.Accepts w (u.map byteOf)) (rest : Str) :
    scanTurn (c :: (u ++ rest)) = .add (c :: u) rest := by
  have hbyte := byteOf_eq_toNat hchar
  have hquote : c ≠ '"' := by
    rintro rfl
    exact absurd hc (by decide)
  have hslash : c ≠ '\\' := by
    rintro rfl
    exact absurd hc (by decide)
  have htail : (tailRanges (byteOf c)).bind (fun ranges => nextByteInRange ranges (u ++ rest))
      = some (u, rest) := (scanTail_iff hc).mpr ⟨w, hfirst, rfl, hlen, haccepts⟩
  rw [scanTurn, if_neg hquote, if_neg hslash, if_neg (by omega), if_neg (by omega), htail]

theorem lo_first : ∀ byte < 256, 0x80 ≤ byte → ∀ w ∈ Utf8.first byte, 0x80 ≤ w.lo := by
  decide +kernel

/-- One turn of the loop that adds bytes. -/
theorem scanString_add {buffer input bytes rest : Str} (h : scanTurn input = .add bytes rest) :
    scanString buffer input = scanString (buffer ++ bytes) rest := by
  rw [scanString]
  split
  · rename_i hturn
    rw [h] at hturn
    cases hturn
  · rename_i hturn
    rw [h] at hturn
    cases hturn
    rfl
  · rename_i hturn
    rw [h] at hturn
    cases hturn

/-- The closing quote ends it. -/
theorem scanString_close (buffer rest : Str) :
    scanString buffer ('"' :: rest) = (.valueString buffer, rest) := by
  have h : scanTurn ('"' :: rest) = .close rest := rfl
  rw [scanString]
  split
  · rename_i hturn
    rw [h] at hturn
    cases hturn
    rfl
  · rename_i hturn
    rw [h] at hturn
    cases hturn
  · rename_i hturn
    rw [h] at hturn
    cases hturn

/-- **The escaped form of a valid string is read back.** -/
theorem scanString_escape {s : Str} (hs : ValidUtf8 s) (hbytes : IsBytes s) (buffer tail : Str) :
    scanString buffer (escape s ++ '"' :: tail) = (.valueString (buffer ++ s), tail) := by
  induction hn : s.length using Nat.strong_induction_on generalizing s buffer with
  | _ n ih =>
      cases s with
      | nil =>
          rw [List.append_nil]
          exact scanString_close buffer tail
      | cons c s =>
          obtain ⟨w, hfirst, hrest⟩ := Utf8.accepts_cons_iff.mp ((Utf8.accepts_iff _).mpr hs)
          change Utf8.first (byteOf c) = some w at hfirst
          have hchar := hbytes c List.mem_cons_self
          have hbyte := byteOf_eq_toNat hchar
          by_cases hascii : byteOf c < 0x80
          · have htails : w = Utf8.tails 0 := by
              rw [Utf8.first, if_pos (by omega)] at hfirst
              exact (Option.some.inj hfirst).symm
            rw [htails] at hrest
            have hstep := ih s.length (by rw [← hn, List.length_cons]; omega)
              ((Utf8.accepts_iff _).mp hrest)
              (fun d hd => hbytes d (List.mem_cons_of_mem _ hd)) (buffer ++ [c]) rfl
            rw [escape, List.flatMap_cons, List.append_assoc,
              scanString_add (scanTurn_escapeChar (by omega) _)]
            rw [escape] at hstep
            rw [hstep, List.append_assoc]
            rfl
          · have hhigh : 0x80 ≤ byteOf c := not_lt.mp hascii
            have hcount := count_first _ (byteOf_lt c) hhigh w hfirst
            have hlo := lo_first _ (byteOf_lt c) hhigh w hfirst
            obtain ⟨m, lo, hi⟩ := w
            obtain ⟨m, rfl⟩ := Nat.exists_eq_succ_of_ne_zero hcount
            obtain ⟨u, rest, rfl, hlen, haccepts, hu, htail⟩ := exists_tail hlo hrest
            have hstep := ih rest.length
              (by rw [← hn, List.length_cons, List.length_append]; omega)
              ((Utf8.accepts_iff _).mp htail)
              (fun d hd => hbytes d (List.mem_cons_of_mem _ (List.mem_append_right _ hd)))
              (buffer ++ c :: u) rfl
            have hescape : escape (c :: (u ++ rest)) = c :: (u ++ escape rest) := by
              have hhead : escape (c :: u) = c :: u := escape_of_high fun d hd => by
                rcases List.mem_cons.mp hd with rfl | hd
                · exact hhigh
                · exact hu d hd
              rw [← List.cons_append, escape_append, hhead, List.cons_append]
            rw [hescape, List.cons_append, List.append_assoc,
              scanString_add (scanTurn_high hhigh hchar hfirst hlen haccepts _), hstep,
              List.append_assoc]
            rfl

/-! ## Numbers -/

/-- The states of `scan_number`, by their labels. -/
inductive NumberState where
  | minus
  | zero
  | any1
  | decimal1
  | decimal2
  | exponent
  | sign
  | any2

/-- `number_type`. -/
inductive NumberType where
  | unsigned
  | integer
  | float

/-- Where a state goes on a character. -/
inductive NumberMove where
  | goto (state : NumberState)
  | done
  | error (message : Str)

def isDigit (c : Char) : Bool := '0' ≤ c && c ≤ '9'

/-- The `switch` of each state; at the end of the input there is no character. -/
def NumberState.move : NumberState → Option Char → NumberMove
  | .minus, c =>
      if c = some '0' then .goto .zero
      else if c.any isDigit then .goto .any1
      else .error "invalid number; expected digit after '-'".toList
  | .zero, c =>
      if c = some '.' then .goto .decimal1
      else if c = some 'e' ∨ c = some 'E' then .goto .exponent
      else .done
  | .any1, c =>
      if c.any isDigit then .goto .any1
      else if c = some '.' then .goto .decimal1
      else if c = some 'e' ∨ c = some 'E' then .goto .exponent
      else .done
  | .decimal1, c =>
      if c.any isDigit then .goto .decimal2
      else .error "invalid number; expected digit after '.'".toList
  | .decimal2, c =>
      if c.any isDigit then .goto .decimal2
      else if c = some 'e' ∨ c = some 'E' then .goto .exponent
      else .done
  | .exponent, c =>
      if c = some '+' ∨ c = some '-' then .goto .sign
      else if c.any isDigit then .goto .any2
      else .error "invalid number; expected '+', '-', or digit after exponent".toList
  | .sign, c =>
      if c.any isDigit then .goto .any2
      else .error "invalid number; expected digit after exponent sign".toList
  | .any2, c => if c.any isDigit then .goto .any2 else .done

/-- `number_type` on entering a state. -/
def NumberState.typeOf (numberType : NumberType) : NumberState → NumberType
  | .minus => .integer
  | .decimal1 => .float
  | .exponent => .float
  | _ => numberType

/-- From a state on: the type, the characters of the number, and what follows them. -/
def scanFrom (state : NumberState) (numberType : NumberType) (buffer : Str) :
    Str → Except Str (NumberType × Str × Str)
  | [] =>
      match state.move none with
      | .error message => .error message
      | _ => .ok (numberType, buffer, [])
  | c :: rest =>
      match state.move (some c) with
      | .goto next => scanFrom next (next.typeOf numberType) (buffer ++ [c]) rest
      | .done => .ok (numberType, buffer, c :: rest)
      | .error message => .error message

/-- The number that decimal digits spell. -/
def digitsValue (digits : Str) : Nat := digits.foldl (fun n c => 10 * n + (c.toNat - 0x30)) 0

section Scan

variable (strtod : Str → Option ℚ)

/-- The conversions at `scan_number_done`: integers that fit, else a floating-point number. -/
def numberToken (numberType : NumberType) (buffer : Str) : Token :=
  match numberType with
  | .unsigned =>
      if digitsValue buffer < 2 ^ 64 then .valueUnsigned (digitsValue buffer)
      else .valueFloat (strtod buffer)
  | .integer =>
      if digitsValue (buffer.drop 1) ≤ 2 ^ 63 then .valueInteger (-digitsValue (buffer.drop 1))
      else .valueFloat (strtod buffer)
  | .float => .valueFloat (strtod buffer)

/-- The state after the first character of a number. -/
def firstState (c : Char) : Option NumberState :=
  if c = '-' then some .minus
  else if c = '0' then some .zero
  else if isDigit c then some .any1
  else none

/-- `scan_number`, its first character read. -/
def scanNumber (c : Char) (state : NumberState) (rest : Str) : Token × Str :=
  match scanFrom state (state.typeOf .unsigned) [c] rest with
  | .ok (numberType, buffer, rest) => (numberToken strtod numberType buffer, rest)
  | .error message => (.parseError message, [])

/-- `scan_literal`, behind its first character. -/
def scanLiteral (token : Token) : Str → Str → Token × Str
  | [], rest => (token, rest)
  | e :: expected, c :: rest =>
      if c = e then scanLiteral token expected rest
      else (.parseError "invalid literal".toList, rest)
  | _ :: _, [] => (.parseError "invalid literal".toList, [])

def isSpace (c : Char) : Bool := c = ' ' || c = '\t' || c = '\n' || c = '\r'

/-- The structural characters. -/
def structural (c : Char) : Option Token :=
  if c = '[' then some .beginArray
  else if c = ']' then some .endArray
  else if c = '\x7b' then some .beginObject
  else if c = '\x7d' then some .endObject
  else if c = ':' then some .nameSeparator
  else if c = ',' then some .valueSeparator
  else none

/-- The literals, by their first character: the token, and what has to follow. -/
def literal (c : Char) : Option (Token × Str) :=
  if c = 't' then some (.literalTrue, "rue".toList)
  else if c = 'f' then some (.literalFalse, "alse".toList)
  else if c = 'n' then some (.literalNull, "ull".toList)
  else none

/-- `scan`, on the first character that is no white space. -/
def scanToken (c : Char) (rest : Str) : Token × Str :=
  match structural c with
  | some token => (token, rest)
  | none =>
      match literal c with
      | some (token, expected) => scanLiteral token expected rest
      | none =>
          if c = '"' then scanString [] rest
          else
            match firstState c with
            | some state => scanNumber strtod c state rest
            | none =>
                if c = '\x00' then (.endOfInput, rest)
                else (.parseError "invalid literal".toList, rest)

/-- `scan`: the next token, and the text behind it. -/
def scan (input : Str) : Token × Str :=
  match input.dropWhile isSpace with
  | [] => (.endOfInput, [])
  | c :: rest => scanToken strtod c rest

/-- `skip_bom`, and the first `scan`. -/
def firstScan (input : Str) : Token × Str :=
  match input with
  | c :: rest =>
      if byteOf c = 0xEF then
        match rest with
        | c₂ :: c₃ :: rest =>
            if byteOf c₂ = 0xBB ∧ byteOf c₃ = 0xBF then scan strtod rest
            else (.parseError "invalid BOM; must be 0xEF 0xBB 0xBF if given".toList, [])
        | _ => (.parseError "invalid BOM; must be 0xEF 0xBB 0xBF if given".toList, [])
      else scan strtod input
  | [] => scan strtod []

/-! ### Every token reads something -/

theorem length_scanString {buffer input : Str} {token : Token} {rest : Str}
    (h : scanString buffer input = (token, rest)) : rest.length ≤ input.length := by
  fun_induction scanString buffer input with
  | case1 buffer input rest' hturn =>
      obtain ⟨-, rfl⟩ := Prod.mk.inj h
      cases input with
      | nil => cases hturn
      | cons c input =>
          rw [scanTurn] at hturn
          split_ifs at hturn
          · cases hturn
            exact Nat.le_succ _
          · split at hturn <;> cases hturn
          · split at hturn <;> cases hturn
  | case2 buffer input bytes rest' hturn ih =>
      exact (ih h).trans (length_scanTurn hturn).le
  | case3 buffer input message hturn =>
      obtain ⟨-, rfl⟩ := Prod.mk.inj h
      exact Nat.zero_le _

/-- The states of `scan_number` only read on. -/
theorem length_scanFrom {state : NumberState} {t t' : NumberType} {buffer buffer' input rest : Str}
    (h : scanFrom state t buffer input = .ok (t', buffer', rest)) :
    rest.length ≤ input.length := by
  induction input generalizing state t buffer with
  | nil =>
      rw [scanFrom] at h
      split at h
      · cases h
      · cases h
        exact Nat.le_refl _
  | cons c input ih =>
      rw [scanFrom] at h
      split at h
      · exact (ih h).trans (Nat.le_succ _)
      · cases h
        exact Nat.le_refl _
      · cases h

theorem length_scanLiteral {token token' : Token} {expected input rest : Str}
    (h : scanLiteral token expected input = (token', rest)) : rest.length ≤ input.length := by
  induction expected generalizing input with
  | nil =>
      cases h
      exact Nat.le_refl _
  | cons e expected ih =>
      cases input with
      | nil =>
          cases h
          exact Nat.le_refl _
      | cons c input =>
          rw [scanLiteral] at h
          split_ifs at h
          · exact (ih h).trans (Nat.le_succ _)
          · cases h
            exact Nat.le_succ _

theorem length_scanNumber {c : Char} {state : NumberState} {input : Str} {token : Token}
    {rest : Str} (h : scanNumber strtod c state input = (token, rest)) :
    rest.length ≤ input.length := by
  rw [scanNumber] at h
  split at h
  · rename_i hfrom
    cases h
    exact length_scanFrom hfrom
  · cases h
    exact Nat.zero_le _

/-- Nor does any token give input back. -/
theorem length_scanToken {c : Char} {input : Str} {token : Token} {rest : Str}
    (h : scanToken strtod c input = (token, rest)) : rest.length ≤ input.length := by
  rw [scanToken] at h
  split at h
  · cases h
    exact Nat.le_refl _
  · split at h
    · exact length_scanLiteral h
    · by_cases hquote : c = '"'
      · rw [if_pos hquote] at h
        exact length_scanString h
      · rw [if_neg hquote] at h
        cases hfirst : firstState c with
        | some state =>
            rw [hfirst] at h
            exact length_scanNumber strtod h
        | none =>
            rw [hfirst] at h
            simp only at h
            split_ifs at h
            all_goals
              cases h
              exact Nat.le_refl _

/-- **A token is read from the text**, unless the text is at its end. -/
theorem length_scan {input : Str} {token : Token} {rest : Str}
    (h : scan strtod input = (token, rest)) :
    rest.length < input.length ∨ token = .endOfInput ∧ rest = [] := by
  rw [scan] at h
  have hle := (List.dropWhile_suffix isSpace (l := input)).length_le
  split at h
  · cases h
    exact Or.inr ⟨rfl, rfl⟩
  · rename_i c rest' hdrop
    have := length_scanToken strtod h
    rw [hdrop, List.length_cons] at hle
    left
    omega

/-! ### Tokens of a text that was written -/

theorem scan_space {c : Char} (h : isSpace c = true) (rest : Str) :
    scan strtod (c :: rest) = scan strtod rest := by
  rw [scan, List.dropWhile_cons_of_pos h, scan]

/-- Indentation is skipped. -/
theorem scan_indentation (n : Nat) (rest : Str) :
    scan strtod (indentation n ++ rest) = scan strtod rest := by
  induction n with
  | zero => rfl
  | succ n ih =>
      rw [indentation, List.replicate_succ, List.cons_append, scan_space strtod (by decide)]
      exact ih

theorem scan_cons {c : Char} (h : isSpace c = false) (rest : Str) :
    scan strtod (c :: rest) = scanToken strtod c rest := by
  rw [scan, List.dropWhile_cons_of_neg (by rw [h]; decide)]

/-- A structural character is a token of its own. -/
theorem scan_structural {c : Char} {token : Token} (hspace : isSpace c = false)
    (h : structural c = some token) (rest : Str) : scan strtod (c :: rest) = (token, rest) := by
  rw [scan_cons strtod hspace, scanToken, h]

theorem scan_null (rest : Str) :
    scan strtod ("null".toList ++ rest) = (.literalNull, rest) := rfl

theorem scan_true (rest : Str) :
    scan strtod ("true".toList ++ rest) = (.literalTrue, rest) := rfl

theorem scan_false (rest : Str) :
    scan strtod ("false".toList ++ rest) = (.literalFalse, rest) := rfl

/-- **A string that was escaped is read back**, if it is valid UTF-8. -/
theorem scan_string {s : Str} (hs : ValidUtf8 s) (hbytes : IsBytes s) (rest : Str) :
    scan strtod ('"' :: (escape s ++ '"' :: rest)) = (.valueString s, rest) := by
  have hstring := scanString_escape hs hbytes [] rest
  rw [List.nil_append] at hstring
  rw [scan_cons strtod (by decide)]
  exact hstring

/-- The number of a token. -/
def Token.number : Token → Option ℚ
  | .valueUnsigned n => some n
  | .valueInteger n => some n
  | .valueFloat q => q
  | _ => none

/-- The text is a number, and it is read as `q`. -/
def ReadsAs (t : Str) (q : ℚ) : Prop :=
  ∃ c state digits token, t = c :: digits ∧ firstState c = some state
    ∧ scanNumber strtod c state digits = (token, []) ∧ token.number = some q

/-- Digits go on with the state behind the first one. -/
theorem scanFrom_digits {digits : Str} (h : ∀ c ∈ digits, isDigit c = true) (t : NumberType)
    (buffer : Str) : scanFrom .any1 t buffer digits = .ok (t, buffer ++ digits, []) := by
  induction digits generalizing buffer with
  | nil =>
      rw [List.append_nil]
      rfl
  | cons c digits ih =>
      obtain ⟨hc, hdigits⟩ := List.forall_mem_cons.mp h
      have hmove : NumberState.any1.move (some c) = .goto .any1 := if_pos hc
      rw [scanFrom, hmove]
      show scanFrom .any1 t (buffer ++ [c]) digits = _
      rw [ih hdigits, List.append_assoc]
      rfl

/-- A number that is not zero does not start with a zero. -/
theorem toDigits_head {n : Nat} (hn : 0 < n) :
    ∃ c digits, Nat.toDigits 10 n = c :: digits ∧ c ≠ '0' := by
  induction n using Nat.strong_induction_on with
  | _ n ih =>
      by_cases hlt : n < 10
      · have hne : ∀ d < 10, 0 < d → Nat.digitChar d ≠ '0' := by decide
        exact ⟨_, [], Nat.toDigits_of_lt_base hlt, hne n hlt hn⟩
      · obtain ⟨c, digits, hdigits, hc⟩ := ih (n / 10) (by omega) (by omega)
        refine ⟨c, digits ++ [Nat.digitChar (n % 10)], ?_, hc⟩
        rw [Nat.toDigits_eq_if (by norm_num), if_neg hlt, hdigits]
        rfl

theorem isDigit_of_mem_toDigits {n : Nat} {c : Char} (h : c ∈ Nat.toDigits 10 n) :
    isDigit c = true :=
  Nat.isDigit_of_mem_toDigits (by decide) (by decide) h

/-- `strtoull` reads what was written in decimal. -/
theorem digitsValue_toDigits (n : Nat) : digitsValue (Nat.toDigits 10 n) = n :=
  Nat.ofDigitChars_ten_toDigits

/-- **An integer in decimal is read back**, whichever of the two types it had. -/
theorem readsAs_decimal {x : Int} (hlo : -2 ^ 63 ≤ x) (hhi : x < 2 ^ 64) :
    ReadsAs strtod (decimal x) x := by
  by_cases hzero : x = 0
  · subst hzero
    exact ⟨'0', .zero, [], .valueUnsigned 0, rfl, rfl, rfl, rfl⟩
  · obtain ⟨c, digits, hdigits, hc⟩ := toDigits_head (n := x.natAbs) (by omega)
    have hall : ∀ d ∈ c :: digits, isDigit d = true := fun d hd =>
      isDigit_of_mem_toDigits (hdigits ▸ hd)
    obtain ⟨hcdigit, hrest⟩ := List.forall_mem_cons.mp hall
    have hvalue : digitsValue (c :: digits) = x.natAbs := hdigits ▸ digitsValue_toDigits _
    have hminus : c ≠ '-' := by
      rintro rfl
      exact absurd hcdigit (by decide)
    by_cases hneg : x < 0
    · refine ⟨'-', .minus, c :: digits, .valueInteger (-(x.natAbs : Int)), ?_, rfl, ?_, ?_⟩
      · rw [decimal, if_pos hneg, hdigits]
      · have hmove : NumberState.minus.move (some c) = .goto .any1 := by
          rw [NumberState.move, if_neg (by simpa using hc)]
          exact if_pos hcdigit
        have hscan : scanFrom .minus .integer ['-'] (c :: digits)
            = .ok (.integer, '-' :: c :: digits, []) := by
          rw [scanFrom, hmove]
          exact scanFrom_digits hrest .integer ['-', c]
        show (match scanFrom .minus .integer ['-'] (c :: digits) with
          | .ok (numberType, buffer, rest) => (numberToken strtod numberType buffer, rest)
          | .error message => (.parseError message, [])) = _
        rw [hscan]
        simp only [numberToken, List.drop_one, List.tail_cons, hvalue]
        rw [if_pos (by omega)]
      · rw [Token.number, Int.natCast_natAbs, abs_of_neg hneg, neg_neg]
    · refine ⟨c, .any1, digits, .valueUnsigned x.natAbs, ?_, ?_, ?_, ?_⟩
      · rw [decimal, if_neg hneg, hdigits]
      · rw [firstState, if_neg hminus, if_neg hc, if_pos hcdigit]
      · rw [scanNumber]
        show (match scanFrom .any1 .unsigned [c] digits with
          | .ok (numberType, buffer, rest) => (numberToken strtod numberType buffer, rest)
          | .error message => (.parseError message, [])) = _
        rw [scanFrom_digits hrest]
        simp only [numberToken, List.singleton_append, hvalue]
        rw [if_pos (by omega)]
      · rw [Token.number, Option.some_inj, ← Int.cast_natCast, Int.natCast_natAbs,
          abs_of_nonneg (not_lt.mp hneg)]

/-- What stands behind a value in a text that was written. -/
def Ends (rest : Str) : Prop := ∀ c ∈ rest.head?, c = ',' ∨ c = '\n'

/-- Where the input may end, a comma or a new line ends the number. -/
theorem move_of_ends {state : NumberState} {c : Char} (hc : c = ',' ∨ c = '\n')
    (h : ∀ message, state.move none ≠ .error message) : state.move (some c) = .done := by
  rcases hc with rfl | rfl
  all_goals
    cases state
    all_goals first
      | rfl
      | exact absurd rfl (h _)

/-- The states stop where a number may end. -/
theorem scanFrom_append {state : NumberState} {t t' : NumberType} {buffer buffer' digits rest : Str}
    (h : scanFrom state t buffer digits = .ok (t', buffer', [])) (hrest : Ends rest) :
    scanFrom state t buffer (digits ++ rest) = .ok (t', buffer', rest) := by
  induction digits generalizing state t buffer with
  | nil =>
      rw [scanFrom] at h
      cases rest with
      | nil => exact h
      | cons c rest =>
          have hmove : state.move (some c) = .done := by
            refine move_of_ends (hrest c rfl) fun message hmessage => ?_
            rw [hmessage] at h
            cases h
          rw [List.nil_append, scanFrom, hmove]
          split at h
          · cases h
          · cases h
            rfl
  | cons c digits ih =>
      rw [scanFrom] at h
      rw [List.cons_append, scanFrom]
      split at h
      · exact ih h
      · cases h
      · cases h

theorem toNat_of_firstState {c : Char} {state : NumberState} (h : firstState c = some state) :
    c.toNat = 0x2D ∨ 0x30 ≤ c.toNat ∧ c.toNat ≤ 0x39 := by
  rw [firstState] at h
  split_ifs at h with hminus hzero hdigit
  · exact Or.inl (by rw [hminus]; rfl)
  · exact Or.inr (by rw [hzero]; decide)
  · rw [isDigit, Bool.and_eq_true, decide_eq_true_eq, decide_eq_true_eq] at hdigit
    exact Or.inr hdigit

/-- The characters that start a number start nothing else. -/
theorem plain_of_firstState {c : Char} {state : NumberState} (h : firstState c = some state) :
    isSpace c = false ∧ structural c = none ∧ literal c = none ∧ c ≠ '"' := by
  have hcode := toNat_of_firstState h
  have hne : ∀ d : Char, ¬ (d.toNat = 0x2D ∨ 0x30 ≤ d.toNat ∧ d.toNat ≤ 0x39) → c ≠ d := by
    rintro d hd rfl
    exact hd hcode
  refine ⟨?_, ?_, ?_, hne _ (by decide)⟩
  · rw [isSpace]
    simp only [hne ' ' (by decide), hne '\t' (by decide), hne '\n' (by decide),
      hne '\r' (by decide), decide_false, Bool.or_false]
  · rw [structural, if_neg (hne _ (by decide)), if_neg (hne _ (by decide)),
      if_neg (hne _ (by decide)), if_neg (hne _ (by decide)), if_neg (hne _ (by decide)),
      if_neg (hne _ (by decide))]
  · rw [literal, if_neg (hne _ (by decide)), if_neg (hne _ (by decide)),
      if_neg (hne _ (by decide))]

/-- **A number is read** up to what ends it. -/
theorem scan_number {t : Str} {q : ℚ} (h : ReadsAs strtod t q) {rest : Str} (hrest : Ends rest) :
    ∃ token, scan strtod (t ++ rest) = (token, rest) ∧ token.number = some q := by
  obtain ⟨c, state, digits, token, rfl, hfirst, hnumber, hq⟩ := h
  obtain ⟨hspace, hstructural, hliteral, hquote⟩ := plain_of_firstState hfirst
  refine ⟨token, ?_, hq⟩
  rw [List.cons_append, scan_cons strtod hspace, scanToken, hstructural]
  simp only [hliteral]
  rw [if_neg hquote, hfirst]
  rw [scanNumber] at hnumber
  split at hnumber
  · rename_i hfrom
    obtain ⟨rfl, rfl⟩ := Prod.mk.inj hnumber
    show scanNumber strtod c state (digits ++ rest) = _
    rw [scanNumber, scanFrom_append hfrom hrest]
  · cases hnumber
    cases hq

end Scan

end TgnewsJsonLexer
