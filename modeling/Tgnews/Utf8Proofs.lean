import Mathlib

/-! # UTF-8, one byte at a time

    A sequence of bytes is valid UTF-8 when it is the encoding of a sequence of Unicode
    scalar values.  A decoder that reads byte by byte only has to remember how many more
    bytes it wants and in which range the next one has to be (`Want`); the ranges keep
    out overlong encodings, surrogates and values past the last scalar.  `accepts_iff`:
    it ends wanting nothing exactly on the valid sequences. -/

namespace Utf8

/-- The bytes of a scalar value. -/
def encode (c : Char) : List Nat := (String.utf8EncodeChar c).map UInt8.toNat

/-- The bytes encode some sequence of scalar values. -/
def Valid (bytes : List Nat) : Prop := ∃ cs : List Char, bytes = cs.flatMap encode

/-- How many more bytes are wanted; the next one from `lo` to `hi`. -/
structure Want where
  count : Nat
  lo : Nat
  hi : Nat
  deriving DecidableEq, Repr

/-- `n` more bytes, each any continuation byte. -/
def tails (n : Nat) : Want := ⟨n, 0x80, 0xBF⟩

@[simp] theorem tails_count (n : Nat) : (tails n).count = n := rfl
@[simp] theorem tails_lo (n : Nat) : (tails n).lo = 0x80 := rfl

/-- What is wanted after the first byte of an encoding. -/
def first (b : Nat) : Option Want :=
  if b ≤ 0x7F then some (tails 0)
  else if 0xC2 ≤ b ∧ b ≤ 0xDF then some (tails 1)
  else if b = 0xE0 then some ⟨2, 0xA0, 0xBF⟩
  else if b = 0xED then some ⟨2, 0x80, 0x9F⟩
  else if 0xE1 ≤ b ∧ b ≤ 0xEF then some (tails 2)
  else if b = 0xF0 then some ⟨3, 0x90, 0xBF⟩
  else if 0xF1 ≤ b ∧ b ≤ 0xF3 then some (tails 3)
  else if b = 0xF4 then some ⟨3, 0x80, 0x8F⟩
  else none

/-- What is wanted after one more byte. -/
def step (w : Want) (b : Nat) : Option Want :=
  match w.count with
  | 0 => first b
  | n + 1 => if w.lo ≤ b ∧ b ≤ w.hi then some (tails n) else none

/-- The bytes are read to the end, and nothing more is wanted. -/
def Accepts (w : Want) (bytes : List Nat) : Prop := bytes.foldlM step w = some (tails 0)

instance (w : Want) (bytes : List Nat) : Decidable (Accepts w bytes) :=
  inferInstanceAs (Decidable (bytes.foldlM step w = some (tails 0)))

/-! ## Steps -/

theorem accepts_nil_iff {w : Want} : Accepts w [] ↔ w = tails 0 := by
  show some w = some (tails 0) ↔ _
  exact Option.some_inj

/-- The automaton takes one byte after the other. -/
theorem accepts_cons_iff {w : Want} {b : Nat} {rest : List Nat} :
    Accepts w (b :: rest) ↔ ∃ w', step w b = some w' ∧ Accepts w' rest := by
  show (step w b).bind (fun w' => rest.foldlM step w') = _ ↔ _
  exact Option.bind_eq_some_iff

/-- A decoder that wants a byte gets one in range. -/
theorem accepts_want_iff {n lo hi : Nat} {bytes : List Nat} :
    Accepts ⟨n + 1, lo, hi⟩ bytes ↔
      ∃ b rest, bytes = b :: rest ∧ (lo ≤ b ∧ b ≤ hi) ∧ Accepts (tails n) rest := by
  cases bytes with
  | nil =>
      rw [accepts_nil_iff]
      constructor
      · intro h
        cases h
      · rintro ⟨b, rest, h, -⟩
        cases h
  | cons b rest =>
      rw [accepts_cons_iff]
      constructor
      · rintro ⟨w', hstep, hrest⟩
        change (if lo ≤ b ∧ b ≤ hi then some (tails n) else none) = some w' at hstep
        by_cases hb : lo ≤ b ∧ b ≤ hi
        · rw [if_pos hb] at hstep
          obtain rfl := Option.some.inj hstep
          exact ⟨b, rest, rfl, hb, hrest⟩
        · rw [if_neg hb] at hstep
          cases hstep
      · rintro ⟨b', rest', heq, hb, hrest⟩
        obtain ⟨rfl, rfl⟩ := List.cons.inj heq
        exact ⟨tails n, if_pos hb, hrest⟩

/-! ## Encodings -/

/-- The encoding, by the size of the value. -/
theorem encode_eq (c : Char) :
    encode c =
      if c.toNat ≤ 0x7F then [c.toNat]
      else if c.toNat ≤ 0x7FF then [c.toNat / 64 + 0xC0, c.toNat % 64 + 0x80]
      else if c.toNat ≤ 0xFFFF then
        [c.toNat / 4096 + 0xE0, c.toNat / 64 % 64 + 0x80, c.toNat % 64 + 0x80]
      else
        [c.toNat / 262144 + 0xF0, c.toNat / 4096 % 64 + 0x80, c.toNat / 64 % 64 + 0x80,
          c.toNat % 64 + 0x80] := by
  have hmax : c.toNat < 0x110000 := by
    have := c.valid
    simp only [UInt32.isValidChar, Nat.isValidChar] at this
    show c.val.toNat < _
    omega
  have hval : c.val.toNat = c.toNat := rfl
  simp only [encode, String.utf8EncodeChar, hval]
  -- no byte is reduced modulo 256, and the leading bits are those of the value
  split_ifs
  all_goals
    simp only [List.map_cons, List.map_nil, UInt8.toNat_ofNat', List.cons.injEq, and_true]
  · omega
  · constructor <;> omega
  · refine ⟨?_, ?_, ?_⟩ <;> omega
  · refine ⟨?_, ?_, ?_, ?_⟩ <;> omega

/-- Values that are scalars. -/
theorem exists_char {v : Nat} (h : v < 0xD800 ∨ 0xDFFF < v ∧ v < 0x110000) :
    ∃ c : Char, c.toNat = v :=
  ⟨Char.ofNatAux v h, by
    show (UInt32.ofNatLT v _).toNat = v
    exact UInt32.toNat_ofNatLT⟩

/-- **A first byte and what it wants make an encoding.** -/
theorem exists_encode_two {a b : Nat} (ha : 0xC2 ≤ a ∧ a ≤ 0xDF) (hb : 0x80 ≤ b ∧ b ≤ 0xBF) :
    ∃ c, encode c = [a, b] := by
  obtain ⟨c, hc⟩ := exists_char (v := (a - 0xC0) * 64 + (b - 0x80)) (by omega)
  refine ⟨c, ?_⟩
  rw [encode_eq, if_neg (by omega), if_pos (by omega)]
  simp only [List.cons.injEq, and_true]
  constructor <;> omega

/-- Three bytes in these ranges encode a character that is no surrogate. -/
theorem exists_encode_three {a b d : Nat} (ha : 0xE0 ≤ a ∧ a ≤ 0xEF)
    (hb : 0x80 ≤ b ∧ b ≤ 0xBF) (hd : 0x80 ≤ d ∧ d ≤ 0xBF) (hlong : a = 0xE0 → 0xA0 ≤ b)
    (hsurr : a = 0xED → b ≤ 0x9F) : ∃ c, encode c = [a, b, d] := by
  obtain ⟨c, hc⟩ := exists_char (v := (a - 0xE0) * 4096 + (b - 0x80) * 64 + (d - 0x80)) (by omega)
  refine ⟨c, ?_⟩
  rw [encode_eq, if_neg (by omega), if_neg (by omega), if_pos (by omega)]
  simp only [List.cons.injEq, and_true]
  refine ⟨?_, ?_, ?_⟩ <;> omega

/-- Four bytes in these ranges encode one within Unicode. -/
theorem exists_encode_four {a b d e : Nat} (ha : 0xF0 ≤ a ∧ a ≤ 0xF4)
    (hb : 0x80 ≤ b ∧ b ≤ 0xBF) (hd : 0x80 ≤ d ∧ d ≤ 0xBF) (he : 0x80 ≤ e ∧ e ≤ 0xBF)
    (hlong : a = 0xF0 → 0x90 ≤ b) (hlast : a = 0xF4 → b ≤ 0x8F) :
    ∃ c, encode c = [a, b, d, e] := by
  obtain ⟨c, hc⟩ := exists_char
    (v := (a - 0xF0) * 262144 + (b - 0x80) * 4096 + (d - 0x80) * 64 + (e - 0x80)) (by omega)
  refine ⟨c, ?_⟩
  rw [encode_eq, if_neg (by omega), if_neg (by omega), if_neg (by omega)]
  simp only [List.cons.injEq, and_true]
  refine ⟨?_, ?_, ?_, ?_⟩ <;> omega

theorem toNat_lt (c : Char) : c.toNat < 0x110000 := by
  have := c.valid
  simp only [UInt32.isValidChar, Nat.isValidChar] at this
  show c.val.toNat < _
  omega

/-! The encodings of each size, and the value. -/

theorem encode_one_iff {c : Char} {a : Nat} : encode c = [a] ↔ c.toNat = a ∧ a ≤ 0x7F := by
  rw [encode_eq]
  split_ifs
  all_goals simp only [List.cons.injEq, reduceCtorEq, and_true, and_false, false_iff]
  all_goals omega

/-- A character in two bytes, and its number. -/
theorem encode_two_iff {c : Char} {a b : Nat} :
    encode c = [a, b] ↔ (0xC2 ≤ a ∧ a ≤ 0xDF) ∧ (0x80 ≤ b ∧ b ≤ 0xBF) ∧
      c.toNat = (a - 0xC0) * 64 + (b - 0x80) := by
  rw [encode_eq]
  split_ifs
  all_goals simp only [List.cons.injEq, reduceCtorEq, and_true, and_false, false_iff]
  all_goals omega

/-- One in three bytes. -/
theorem encode_three_iff {c : Char} {a b d : Nat} :
    encode c = [a, b, d] ↔ (0xE0 ≤ a ∧ a ≤ 0xEF) ∧ (0x80 ≤ b ∧ b ≤ 0xBF) ∧
      (0x80 ≤ d ∧ d ≤ 0xBF) ∧ (a = 0xE0 → 0xA0 ≤ b) ∧
      c.toNat = (a - 0xE0) * 4096 + (b - 0x80) * 64 + (d - 0x80) := by
  rw [encode_eq]
  split_ifs
  all_goals simp only [List.cons.injEq, reduceCtorEq, and_true, and_false, false_iff]
  all_goals omega

/-- One in four. -/
theorem encode_four_iff {c : Char} {a b d e : Nat} :
    encode c = [a, b, d, e] ↔ (0xF0 ≤ a ∧ a ≤ 0xF4) ∧ (0x80 ≤ b ∧ b ≤ 0xBF) ∧
      (0x80 ≤ d ∧ d ≤ 0xBF) ∧ (0x80 ≤ e ∧ e ≤ 0xBF) ∧ (a = 0xF0 → 0x90 ≤ b) ∧
      c.toNat = (a - 0xF0) * 262144 + (b - 0x80) * 4096 + (d - 0x80) * 64 + (e - 0x80) := by
  have hmax := toNat_lt c
  rw [encode_eq]
  split_ifs
  all_goals simp only [List.cons.injEq, reduceCtorEq, and_true, and_false, false_iff]
  all_goals omega

/-- A byte of the form `10xxxxxx`. -/
def isContinuation (b : Nat) : Bool := b &&& 0xC0 = 0x80

/-- The bytes that do not start a character. -/
theorem isContinuation_iff : ∀ b < 256, isContinuation b = true ↔ 0x80 ≤ b ∧ b ≤ 0xBF := by
  decide +kernel

/-- How many bytes an encoding has, by its first byte. -/
def size (a : Nat) : Nat :=
  if a ≤ 0x7F then 1 else if a ≤ 0xDF then 2 else if a ≤ 0xEF then 3 else 4

/-- An encoding has a first byte that is no continuation byte, and tells the size; the
    others are continuation bytes. -/
theorem encode_cons (c : Char) : ∃ a t, encode c = a :: t ∧ t.length + 1 = size a ∧
    (a < 0x80 ∨ 0xC0 ≤ a ∧ a < 0x100) ∧ ∀ b ∈ t, 0x80 ≤ b ∧ b ≤ 0xBF := by
  have hmax := toNat_lt c
  rw [encode_eq]
  split_ifs with h1 h2 h3
  · exact ⟨_, _, rfl, (if_pos h1).symm, by omega, fun b hb => absurd hb List.not_mem_nil⟩
  all_goals
    refine ⟨_, _, rfl, ?_, by omega, ?_⟩
    · simp only [size, List.length_cons, List.length_nil]
      split_ifs <;> omega
    · simp only [List.mem_cons, List.not_mem_nil, or_false, forall_eq_or_imp, forall_eq]
      omega

/-- **No encoding starts another.** -/
theorem encode_append_inj {c c' : Char} {rest rest' : List Nat}
    (h : encode c ++ rest = encode c' ++ rest') : encode c = encode c' ∧ rest = rest' := by
  obtain ⟨a, t, hc, hsize, -⟩ := encode_cons c
  obtain ⟨a', t', hc', hsize', -⟩ := encode_cons c'
  refine List.append_inj h ?_
  rw [hc, hc', List.cons_append, List.cons_append] at h
  obtain ⟨rfl, -⟩ := List.cons.inj h
  rw [hc, hc', List.length_cons, List.length_cons, hsize, hsize']

/-! ## First bytes -/

/-- The first bytes of encodings of three bytes, and what may follow them. -/
theorem first_three {a : Nat} (ha : 0xE0 ≤ a ∧ a ≤ 0xEF) :
    ∃ lo hi, first a = some ⟨2, lo, hi⟩ ∧
      ∀ b, (lo ≤ b ∧ b ≤ hi) ↔
        (0x80 ≤ b ∧ b ≤ 0xBF) ∧ (a = 0xE0 → 0xA0 ≤ b) ∧ (a = 0xED → b ≤ 0x9F) := by
  rw [first, if_neg (by omega), if_neg (by omega)]
  by_cases hE0 : a = 0xE0
  · rw [if_pos hE0]
    exact ⟨_, _, rfl, fun b => by omega⟩
  · rw [if_neg hE0]
    by_cases hED : a = 0xED
    · rw [if_pos hED]
      exact ⟨_, _, rfl, fun b => by omega⟩
    · rw [if_neg hED, if_pos (by omega)]
      exact ⟨_, _, rfl, fun b => by omega⟩

/-- The first bytes of encodings of four bytes, and what may follow them. -/
theorem first_four {a : Nat} (ha : 0xF0 ≤ a ∧ a ≤ 0xF4) :
    ∃ lo hi, first a = some ⟨3, lo, hi⟩ ∧
      ∀ b, (lo ≤ b ∧ b ≤ hi) ↔
        (0x80 ≤ b ∧ b ≤ 0xBF) ∧ (a = 0xF0 → 0x90 ≤ b) ∧ (a = 0xF4 → b ≤ 0x8F) := by
  rw [first, if_neg (by omega), if_neg (by omega), if_neg (by omega), if_neg (by omega),
    if_neg (by omega)]
  split_ifs with hF0 hF hF4
  · exact ⟨_, _, rfl, fun b => by omega⟩
  · exact ⟨_, _, rfl, fun b => by omega⟩
  · exact ⟨_, _, rfl, fun b => by omega⟩
  · omega

/-- The bytes that start an encoding. -/
theorem first_range {a : Nat} {w : Want} (h : first a = some w) :
    a ≤ 0x7F ∨ (0xC2 ≤ a ∧ a ≤ 0xDF) ∨ (0xE0 ≤ a ∧ a ≤ 0xEF) ∨ (0xF0 ≤ a ∧ a ≤ 0xF4) := by
  rw [first] at h
  split_ifs at h
  all_goals omega

/-- **Reading an encoding** leaves nothing wanted. -/
theorem accepts_encode (c : Char) {rest : List Nat} (hrest : Accepts (tails 0) rest) :
    Accepts (tails 0) (encode c ++ rest) := by
  have hsurr := c.valid
  simp only [UInt32.isValidChar, Nat.isValidChar] at hsurr
  have hval : c.val.toNat = c.toNat := rfl
  rw [hval] at hsurr
  rw [encode_eq]
  split_ifs with h1 h2 h3
  · exact accepts_cons_iff.mpr ⟨tails 0, if_pos h1, hrest⟩
  · refine accepts_cons_iff.mpr ⟨tails 1, ?_, ?_⟩
    · show first _ = _
      rw [first, if_neg (by omega), if_pos (by omega)]
    · exact accepts_want_iff.mpr ⟨_, _, rfl, by omega, hrest⟩
  · obtain ⟨lo, hi, hfirst, hrange⟩ := first_three (a := c.toNat / 4096 + 0xE0) (by omega)
    refine accepts_cons_iff.mpr ⟨_, hfirst, ?_⟩
    refine accepts_want_iff.mpr ⟨_, _, rfl, (hrange _).mpr (by omega), ?_⟩
    exact accepts_want_iff.mpr ⟨_, _, rfl, by omega, hrest⟩
  · obtain ⟨lo, hi, hfirst, hrange⟩ := first_four (a := c.toNat / 262144 + 0xF0) (by omega)
    refine accepts_cons_iff.mpr ⟨_, hfirst, ?_⟩
    refine accepts_want_iff.mpr ⟨_, _, rfl, (hrange _).mpr (by omega), ?_⟩
    refine accepts_want_iff.mpr ⟨_, _, rfl, by omega, ?_⟩
    exact accepts_want_iff.mpr ⟨_, _, rfl, by omega, hrest⟩

/-- **What is accepted starts with an encoding**, and goes on with what is accepted. -/
theorem exists_encode_of_accepts {a : Nat} {bytes : List Nat}
    (h : Accepts (tails 0) (a :: bytes)) :
    ∃ c rest, a :: bytes = encode c ++ rest ∧ Accepts (tails 0) rest := by
  obtain ⟨w, hfirst, hbytes⟩ := accepts_cons_iff.mp h
  change first a = some w at hfirst
  rcases first_range hfirst with ha | ha | ha | ha
  · obtain ⟨c, hc⟩ := exists_char (v := a) (by omega)
    rw [first, if_pos ha] at hfirst
    obtain rfl := Option.some.inj hfirst
    exact ⟨c, bytes, by rw [encode_eq, if_pos (by omega), hc]; rfl, hbytes⟩
  · rw [first, if_neg (by omega), if_pos ha] at hfirst
    obtain rfl := Option.some.inj hfirst
    obtain ⟨b, rest, rfl, hb, hrest⟩ := accepts_want_iff.mp hbytes
    obtain ⟨c, hc⟩ := exists_encode_two ha hb
    exact ⟨c, rest, by rw [hc]; rfl, hrest⟩
  · obtain ⟨lo, hi, hthree, hrange⟩ := first_three ha
    obtain rfl := Option.some.inj (hfirst.symm.trans hthree)
    obtain ⟨b, rest, rfl, hb, hrest⟩ := accepts_want_iff.mp hbytes
    obtain ⟨d, rest, rfl, hd, hrest⟩ := accepts_want_iff.mp hrest
    obtain ⟨hb, hlong, hsurr⟩ := (hrange b).mp hb
    obtain ⟨c, hc⟩ := exists_encode_three ha hb hd hlong hsurr
    exact ⟨c, rest, by rw [hc]; rfl, hrest⟩
  · obtain ⟨lo, hi, hfour, hrange⟩ := first_four ha
    obtain rfl := Option.some.inj (hfirst.symm.trans hfour)
    obtain ⟨b, rest, rfl, hb, hrest⟩ := accepts_want_iff.mp hbytes
    obtain ⟨d, rest, rfl, hd, hrest⟩ := accepts_want_iff.mp hrest
    obtain ⟨e, rest, rfl, he, hrest⟩ := accepts_want_iff.mp hrest
    obtain ⟨hb, hlong, hlast⟩ := (hrange b).mp hb
    obtain ⟨c, hc⟩ := exists_encode_four ha hb hd he hlong hlast
    exact ⟨c, rest, by rw [hc]; rfl, hrest⟩

theorem encode_ne_nil (c : Char) : encode c ≠ [] := by
  rw [encode_eq]
  split_ifs <;> exact List.cons_ne_nil _ _

/-- **The decoder accepts exactly the valid sequences.** -/
theorem accepts_iff (bytes : List Nat) : Accepts (tails 0) bytes ↔ Valid bytes := by
  constructor
  · -- an accepted sequence is cut at its first encoding; what is left is shorter
    intro h
    induction hn : bytes.length using Nat.strong_induction_on generalizing bytes with
    | _ n ih =>
        cases bytes with
        | nil => exact ⟨[], rfl⟩
        | cons a bytes =>
            obtain ⟨c, rest, heq, hrest⟩ := exists_encode_of_accepts h
            have hlen : rest.length < n := by
              have hpos := List.length_pos_iff.mpr (encode_ne_nil c)
              rw [heq, List.length_append] at hn
              omega
            obtain ⟨cs, hcs⟩ := ih rest.length hlen rest hrest rfl
            exact ⟨c :: cs, by rw [heq, hcs, List.flatMap_cons]⟩
  · rintro ⟨cs, rfl⟩
    induction cs with
    | nil => exact accepts_nil_iff.mpr rfl
    | cons c cs ih =>
        rw [List.flatMap_cons]
        exact accepts_encode c ih

/-- Valid texts join to valid ones. -/
theorem Valid.append {bytes rest : List Nat} (h : Valid bytes) (hrest : Valid rest) :
    Valid (bytes ++ rest) := by
  obtain ⟨cs, rfl⟩ := h
  obtain ⟨cs', rfl⟩ := hrest
  exact ⟨cs ++ cs', List.flatMap_append.symm⟩

/-- What follows a valid sequence in a valid sequence is valid. -/
theorem Valid.of_append {bytes rest : List Nat} (h : Valid (bytes ++ rest)) (hbytes : Valid bytes) :
    Valid rest := by
  have haccepts := (accepts_iff _).mpr h
  rw [Accepts, List.foldlM_append, (accepts_iff bytes).mpr hbytes] at haccepts
  exact (accepts_iff rest).mp haccepts

theorem valid_nil : Valid [] := ⟨[], rfl⟩

theorem valid_ascii {b : Nat} (hb : b ≤ 0x7F) : Valid [b] := by
  obtain ⟨c, hc⟩ := exists_char (v := b) (by omega)
  exact ⟨[c], by rw [List.flatMap_singleton, encode_one_iff.mpr ⟨hc, hb⟩]⟩

/-- **A cut in front of a byte that is no continuation byte**, or at the end, is a cut between
    characters. -/
theorem Valid.take {bytes : List Nat} (h : Valid bytes) {i : Nat}
    (hcut : ∀ b, bytes[i]? = some b → ¬ (0x80 ≤ b ∧ b ≤ 0xBF)) : Valid (bytes.take i) := by
  obtain ⟨cs, rfl⟩ := h
  induction cs generalizing i with
  | nil =>
      rw [List.flatMap_nil, List.take_nil]
      exact valid_nil
  | cons c cs ih =>
      rw [List.flatMap_cons] at hcut ⊢
      by_cases hlong : (encode c).length ≤ i
      · rw [List.getElem?_append_right hlong] at hcut
        rw [List.take_append, List.take_of_length_le hlong]
        exact Valid.append ⟨[c], (List.flatMap_singleton _ _).symm⟩ (ih hcut)
      · rw [List.take_append_of_le_length (by omega)]
        obtain ⟨a, t, hc, -, -, htail⟩ := encode_cons c
        cases i with
        | zero =>
            rw [List.take_zero]
            exact valid_nil
        | succ i =>
            have hi : i < t.length := by
              rw [hc, List.length_cons] at hlong
              omega
            refine absurd (htail t[i] (List.getElem_mem hi)) (hcut t[i] ?_)
            rw [hc, List.cons_append, List.getElem?_cons_succ, List.getElem?_append_left hi,
              List.getElem?_eq_getElem hi]

/-- **A cut behind an ASCII character.** -/
theorem Valid.take_succ {bytes : List Nat} (h : Valid bytes) {i b : Nat}
    (hb : bytes[i]? = some b) (hascii : b ≤ 0x7F) : Valid (bytes.take (i + 1)) := by
  have hcut : ∀ b', bytes[i]? = some b' → ¬ (0x80 ≤ b' ∧ b' ≤ 0xBF) := by
    intro b' hb'
    obtain rfl := Option.some.inj (hb.symm.trans hb')
    omega
  rw [List.take_add_one, hb]
  exact (h.take hcut).append (valid_ascii hascii)

/-- The first byte of valid text is not a continuation byte. -/
theorem Valid.head {b : Nat} {rest : List Nat} (h : Valid (b :: rest)) :
    b < 0x80 ∨ 0xC0 ≤ b ∧ b < 0x100 := by
  obtain ⟨cs, hcs⟩ := h
  cases cs with
  | nil => cases hcs
  | cons c cs =>
      obtain ⟨a, t, hc, -, ha, -⟩ := encode_cons c
      rw [List.flatMap_cons, hc] at hcs
      obtain ⟨rfl, -⟩ := List.cons.inj hcs
      exact ha

/-- The character at the front of valid text has the size that its first byte tells. -/
theorem Valid.size_le {b : Nat} {rest : List Nat} (h : Valid (b :: rest)) :
    size b ≤ rest.length + 1 ∧ Valid ((b :: rest).drop (size b)) := by
  obtain ⟨cs, hcs⟩ := h
  cases cs with
  | nil => cases hcs
  | cons c cs =>
      obtain ⟨a, t, hc, hsize, -⟩ := encode_cons c
      rw [List.flatMap_cons, hc, List.cons_append] at hcs
      obtain ⟨rfl, rfl⟩ := List.cons.inj hcs
      refine ⟨by rw [List.length_append]; omega, cs, ?_⟩
      rw [← hsize, List.drop_succ_cons, List.drop_left]

theorem Valid.lt {bytes : List Nat} (h : Valid bytes) : ∀ b ∈ bytes, b < 256 := by
  obtain ⟨cs, rfl⟩ := h
  intro b hb
  obtain ⟨c, -, hc⟩ := List.mem_flatMap.mp hb
  obtain ⟨u, -, rfl⟩ := List.mem_map.mp hc
  exact u.toNat_lt

/-- The bytes encode characters of a class. -/
def Encodes (P : Char → Prop) (bytes : List Nat) : Prop :=
  ∃ cs : List Char, (∀ c ∈ cs, P c) ∧ bytes = cs.flatMap encode

/-- A text of some class of characters is valid. -/
theorem Encodes.valid {P : Char → Prop} {bytes : List Nat} (h : Encodes P bytes) :
    Valid bytes := by
  obtain ⟨cs, -, rfl⟩ := h
  exact ⟨cs, rfl⟩

theorem encodes_nil (P : Char → Prop) : Encodes P [] :=
  ⟨[], fun _ hc => absurd hc List.not_mem_nil, rfl⟩

/-- Texts of a class join to one of it. -/
theorem Encodes.append {P : Char → Prop} {bytes rest : List Nat} (h : Encodes P bytes)
    (hrest : Encodes P rest) : Encodes P (bytes ++ rest) := by
  obtain ⟨cs, hcs, rfl⟩ := h
  obtain ⟨cs', hcs', rfl⟩ := hrest
  refine ⟨cs ++ cs', ?_, List.flatMap_append.symm⟩
  intro c hc
  exact (List.mem_append.mp hc).elim (hcs c) (hcs' c)

/-- **A cut between characters** leaves characters of the class on both sides. -/
theorem Encodes.split {P : Char → Prop} {bytes rest : List Nat} (h : Encodes P (bytes ++ rest))
    (hbytes : Valid bytes) : Encodes P bytes ∧ Encodes P rest := by
  obtain ⟨cs', rfl⟩ := hbytes
  induction cs' with
  | nil => exact ⟨encodes_nil P, h⟩
  | cons c' cs' ih =>
      obtain ⟨cs, hcs, heq⟩ := h
      rw [List.flatMap_cons, List.append_assoc] at heq
      cases cs with
      | nil =>
          rw [List.flatMap_nil, List.append_eq_nil_iff] at heq
          exact absurd heq.1 (encode_ne_nil c')
      | cons c cs =>
          rw [List.flatMap_cons] at heq
          obtain ⟨hsame, hrest⟩ := encode_append_inj heq
          obtain ⟨hc, hcs⟩ := List.forall_mem_cons.mp hcs
          obtain ⟨⟨cs'', hcs'', hfront⟩, hback⟩ := ih ⟨cs, hcs, hrest⟩
          refine ⟨⟨c :: cs'', List.forall_mem_cons.mpr ⟨hc, hcs''⟩, ?_⟩, hback⟩
          rw [List.flatMap_cons, List.flatMap_cons, hsame, hfront]

/-- The same, by the place of the cut. -/
theorem Encodes.take_drop {P : Char → Prop} {bytes : List Nat} {i : Nat} (h : Encodes P bytes)
    (hcut : Valid (bytes.take i)) : Encodes P (bytes.take i) ∧ Encodes P (bytes.drop i) := by
  rw [← List.take_append_drop i bytes] at h
  exact h.split hcut

instance (bytes : List Nat) : Decidable (Valid bytes) :=
  decidable_of_iff (Accepts (tails 0) bytes) (accepts_iff bytes)

end Utf8
