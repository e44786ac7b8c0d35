import Tgnews.IoProofs
import Tgnews.Utf8Proofs

/-! # Writing a JSON value to the output (`serializer.hpp`)

    What the `Dump` functions stream to `std::cout` goes through the serializer of the
    JSON library, which throws on a string that is not valid UTF-8; by then the values
    before it are written.  The route:

    * `want_nextState` — the table of the decoder simulates the decoder of `Utf8`, and
      `dumpEscaped_prints` — so a string is written exactly when it is valid;
    * `dumpInteger_eq` — an integer is written in decimal, whatever the buffer held;
    * `dump_prints` — so a value is written exactly when all of its strings are valid, and
      `printJson_prints` — a line of output too. -/

namespace TgnewsSerializer

open CxxContainers CxxText TgnewsCommon TgnewsIo

/-! ## Output -/

/-- A computation that writes to a stream and may throw; what was written stays. -/
abbrev Print := EStateM Fault Str

/-- `o->write_characters(s, s.size())`. -/
def write (s : Str) : Print Unit := modify (· ++ s)

/-- A computation that prints nothing, in one that does. -/
instance : MonadLift (Except Fault) Print where
  monadLift
    | .ok a => pure a
    | .error e => throw e

/-- It ends, and has written `t`. -/
def Writes (p : Print Unit) (t : Str) : Prop := ∀ out, p out = .ok () (out ++ t)

/-- It throws `e`, whatever is written by then. -/
def Throws {α : Type} (p : Print α) (e : Fault) : Prop := ∀ out, ∃ out', p out = .error e out'

/-- It writes `t` if `ok` and throws a type error if not. -/
structure Prints (ok : Prop) (p : Print Unit) (t : Str) : Prop where
  writes : ok → Writes p t
  throws : ¬ ok → Throws p .typeError

/-- A step that returns hands on to the next one. -/
theorem bind_of_ok {α β : Type} {p : Print α} {a : α} {out out' : Str} (h : p out = .ok a out')
    (f : α → Print β) : (p >>= f) out = f a out' := by
  show EStateM.bind p f out = _
  rw [EStateM.bind, h]

/-- A step that throws ends the rest. -/
theorem bind_of_error {α β : Type} {p : Print α} {e : Fault} {out out' : Str}
    (h : p out = .error e out') (f : α → Print β) : (p >>= f) out = .error e out' := by
  show EStateM.bind p f out = _
  rw [EStateM.bind, h]

@[simp] theorem lift_ok_bind {α β : Type} (a : α) (p : α → Print β) :
    ((liftM (Except.ok a : Except Fault α) : Print α) >>= p) = p a := rfl

/-- What is written is not also thrown away. -/
theorem Writes.not_throws {p : Print Unit} {t : Str} {e : Fault} (h : Writes p t) :
    ¬ Throws p e := by
  intro hthrows
  obtain ⟨out', hout⟩ := hthrows []
  rw [h []] at hout
  cases hout

/-- A computation writes one text at most. -/
theorem Writes.unique {p : Print Unit} {t t' : Str} (h : Writes p t) (h' : Writes p t') :
    t = t' := by
  have hout := (h []).symm.trans (h' [])
  rw [List.nil_append, List.nil_append] at hout
  exact (EStateM.Result.ok.inj hout).2

theorem prints_write (t : Str) : Prints True (write t) t where
  writes _ _ := rfl
  throws h := absurd trivial h

/-- **It writes exactly when** it may. -/
theorem Prints.writes_iff {ok : Prop} {p : Print Unit} {t : Str} (h : Prints ok p t) :
    Writes p t ↔ ok := by
  refine ⟨fun hwrites => ?_, h.writes⟩
  by_contra hbad
  exact hwrites.not_throws (h.throws hbad)

theorem Prints.congr {ok ok' : Prop} {p : Print Unit} {t t' : Str} (h : Prints ok p t)
    (hok : ok' ↔ ok) (ht : t' = t) : Prints ok' p t' where
  writes hok' := by rw [ht]; exact h.writes (hok.mp hok')
  throws hok' := h.throws fun h' => hok' (hok.mpr h')

/-- **Sequencing.** -/
theorem Prints.bind {ok ok' : Prop} {p q : Print Unit} {t t' : Str} (hp : Prints ok p t)
    (hq : Prints ok' q t') : Prints (ok ∧ ok') (p >>= fun _ => q) (t ++ t') where
  writes h out := by
    rw [bind_of_ok (hp.writes h.1 out), hq.writes h.2, List.append_assoc]
  throws h out := by
    by_cases hok : ok
    · rw [bind_of_ok (hp.writes hok out)]
      exact hq.throws (fun h' => h ⟨hok, h'⟩) (out ++ t)
    · obtain ⟨out', hthrows⟩ := hp.throws hok out
      exact ⟨out', bind_of_error hthrows _⟩

/-! ## Strings -/

/-- The table of `decode`: the class of each byte, then for each state the next one by
    the class of the byte. -/
def utf8d : List Nat := [
  -- 00..1F
  0, 0, 0, 0, 0, 0, 0, 0, 0, 0, 0, 0, 0, 0, 0, 0,
  0, 0, 0, 0, 0, 0, 0, 0, 0, 0, 0, 0, 0, 0, 0, 0,
  -- 20..3F
  0, 0, 0, 0, 0, 0, 0, 0, 0, 0, 0, 0, 0, 0, 0, 0,
  0, 0, 0, 0, 0, 0, 0, 0, 0, 0, 0, 0, 0, 0, 0, 0,
  -- 40..5F
  0, 0, 0, 0, 0, 0, 0, 0, 0, 0, 0, 0, 0, 0, 0, 0,
  0, 0, 0, 0, 0, 0, 0, 0, 0, 0, 0, 0, 0, 0, 0, 0,
  -- 60..7F
  0, 0, 0, 0, 0, 0, 0, 0, 0, 0, 0, 0, 0, 0, 0, 0,
  0, 0, 0, 0, 0, 0, 0, 0, 0, 0, 0, 0, 0, 0, 0, 0,
  -- 80..9F
  1, 1, 1, 1, 1, 1, 1, 1, 1, 1, 1, 1, 1, 1, 1, 1,
  9, 9, 9, 9, 9, 9, 9, 9, 9, 9, 9, 9, 9, 9, 9, 9,
  -- A0..BF
  7, 7, 7, 7, 7, 7, 7, 7, 7, 7, 7, 7, 7, 7, 7, 7,
  7, 7, 7, 7, 7, 7, 7, 7, 7, 7, 7, 7, 7, 7, 7, 7,
  -- C0..DF
  8, 8, 2, 2, 2, 2, 2, 2, 2, 2, 2, 2, 2, 2, 2, 2,
  2, 2, 2, 2, 2, 2, 2, 2, 2, 2, 2, 2, 2, 2, 2, 2,
  -- E0..EF
  0xA, 0x3, 0x3, 0x3, 0x3, 0x3, 0x3, 0x3, 0x3, 0x3, 0x3, 0x3, 0x3, 0x4, 0x3, 0x3,
  -- F0..FF
  0xB, 0x6, 0x6, 0x6, 0x5, 0x8, 0x8, 0x8, 0x8, 0x8, 0x8, 0x8, 0x8, 0x8, 0x8, 0x8,
  -- s0..s0
  0x0, 0x1, 0x2, 0x3, 0x5, 0x8, 0x7, 0x1, 0x1, 0x1, 0x4, 0x6, 0x1, 0x1, 0x1, 0x1,
  -- s1..s2
  1, 1, 1, 1, 1, 1, 1, 1, 1, 1, 1, 1, 1, 1, 1, 1,
  1, 0, 1, 1, 1, 1, 1, 0, 1, 0, 1, 1, 1, 1, 1, 1,
  -- s3..s4
  1, 2, 1, 1, 1, 1, 1, 2, 1, 2, 1, 1, 1, 1, 1, 1,
  1, 1, 1, 1, 1, 1, 1, 2, 1, 1, 1, 1, 1, 1, 1, 1,
  -- s5..s6
  1, 2, 1, 1, 1, 1, 1, 1, 1, 2, 1, 1, 1, 1, 1, 1,
  1, 1, 1, 1, 1, 1, 1, 3, 1, 3, 1, 1, 1, 1, 1, 1,
  -- s7..s8
  1, 3, 1, 1, 1, 1, 1, 3, 1, 3, 1, 1, 1, 1, 1, 1,
  1, 3, 1, 1, 1, 1, 1, 1, 1, 1, 1, 1, 1, 1, 1, 1]

def utf8Accept : Nat := 0
def utf8Reject : Nat := 1

/-- The state after a byte. -/
def nextState (state byte : Nat) : Nat := utf8d.getD (256 + state * 16 + utf8d.getD byte 0) 0

/-- `decode`: the state and the code point after a byte. -/
def decode (state codep byte : Nat) : Nat × Nat :=
  (nextState state byte,
    if state ≠ utf8Accept then (byte &&& 0x3F) ||| (codep <<< 6) % 2 ^ 32
    else (0xFF >>> utf8d.getD byte 0) &&& byte)

/-- `static_cast<uint8_t>(c)`. -/
def byteOf (c : Char) : Nat := c.toNat % 256

/-- The bytes of the string are valid UTF-8. -/
def ValidUtf8 (s : Str) : Prop := Utf8.Valid (s.map byteOf)

instance (s : Str) : Decidable (ValidUtf8 s) := inferInstanceAs (Decidable (Utf8.Valid _))

/-- `"\\u%04x"` of a code point. -/
def hex4 (n : Nat) : Str :=
  ['\\', 'u', Nat.digitChar (n / 4096 % 16), Nat.digitChar (n / 256 % 16),
    Nat.digitChar (n / 16 % 16), Nat.digitChar (n % 16)]

/-- What stands in the output for a code point with last byte `c`. -/
def escapeCodepoint (codepoint : Nat) (c : Char) : Str :=
  match codepoint with
  | 0x08 => ['\\', 'b']
  | 0x09 => ['\\', 't']
  | 0x0A => ['\\', 'n']
  | 0x0C => ['\\', 'f']
  | 0x0D => ['\\', 'r']
  | 0x22 => ['\\', '"']
  | 0x5C => ['\\', '\\']
  | _ => if codepoint ≤ 0x1F then hex4 codepoint else [c]

/-- The variables of `dump_escaped`: those of the decoder, and the bytes in the string
    buffer. -/
structure Escaper where
  state : Nat
  codepoint : Nat
  buffer : Str

/-- The body of the loop of `dump_escaped`.  The buffer of 512 bytes is written out when
    there may be no room for one more code point. -/
def escapeStep (e : Escaper) (c : Char) : Print Escaper := do
  let (state, codepoint) := decode e.state e.codepoint (byteOf c)
  if state = utf8Accept then
    let buffer := e.buffer ++ escapeCodepoint codepoint c
    if 512 - buffer.length < 13 then
      write buffer
      return ⟨state, codepoint, []⟩
    else return ⟨state, codepoint, buffer⟩
  else if state = utf8Reject then throw .typeError
  else return ⟨state, codepoint, e.buffer ++ [c]⟩

/-- `dump_escaped`, as `operator<<` has it: strict, and not confined to ASCII. -/
def dumpEscaped (s : Str) : Print Unit := do
  let e ← s.foldlM escapeStep ⟨utf8Accept, 0, []⟩
  if e.state = utf8Accept then
    if 0 < e.buffer.length then write e.buffer
  else throw .typeError

/-! ### The decoder -/

/-- What the decoder wants in a state. -/
def want : Nat → Option Utf8.Want
  | 0 => some (Utf8.tails 0)
  | 2 => some (Utf8.tails 1)
  | 3 => some (Utf8.tails 2)
  | 4 => some ⟨2, 0xA0, 0xBF⟩
  | 5 => some ⟨2, 0x80, 0x9F⟩
  | 6 => some ⟨3, 0x90, 0xBF⟩
  | 7 => some (Utf8.tails 3)
  | 8 => some ⟨3, 0x80, 0x8F⟩
  | _ => none

/-- The second part of the table, for each byte and state. -/
theorem want_transitions : ∀ byte < 256, ∀ state < 9,
    want ((utf8d.drop 256).getD (state * 16 + utf8d.getD byte 0) 0)
      = (want state).bind fun w => Utf8.step w byte := by
  decide +kernel

/-- **The table simulates the decoder.** -/
theorem want_nextState {state byte : Nat} {w : Utf8.Want} (hstate : want state = some w)
    (hbyte : byte < 256) : want (nextState state byte) = Utf8.step w byte := by
  have hlt : state < 9 := by
    by_contra h
    have hnone : want state = none := by
      unfold want
      split <;> first | omega | rfl
    rw [hnone] at hstate
    cases hstate
  have h := want_transitions byte hbyte state hlt
  rw [hstate, List.getD_eq_getElem?_getD, List.getElem?_drop, ← List.getD_eq_getElem?_getD,
    ← Nat.add_assoc] at h
  exact h

/-- Between two characters the decoder is in its accepting state. -/
theorem want_eq_start_iff {state : Nat} :
    want state = some (Utf8.tails 0) ↔ state = utf8Accept := by
  constructor
  · intro h
    unfold want at h
    split at h <;> first | rfl | cases h
  · rintro rfl
    rfl

/-- And only there is nothing wanted. -/
theorem want_count_eq_zero {state : Nat} {w : Utf8.Want} (h : want state = some w)
    (hcount : w.count = 0) : state = utf8Accept := by
  unfold want at h
  split at h <;> first | rfl | cases h <;> cases hcount

/-- The table has nine states. -/
theorem nextState_lt (state byte : Nat) : nextState state byte < 9 := by
  have hall : ∀ x ∈ utf8d.drop 256, x < 9 := by decide +kernel
  rw [nextState, Nat.add_assoc, List.getD_eq_getElem?_getD, ← List.getElem?_drop]
  cases hx : (utf8d.drop 256)[state * 16 + utf8d.getD byte 0]? with
  | none => decide
  | some x => exact hall x (List.mem_of_getElem? hx)

/-- In the rejecting state no byte is wanted. -/
theorem want_eq_none_iff {state : Nat} (h : state < 9) :
    want state = none ↔ state = utf8Reject := by
  revert state
  decide

/-- The code point so far, with whatever is wanted, is past ASCII; and it has room. -/
structure Underway (w : Utf8.Want) (codep : Nat) : Prop where
  wide : 0x80 ≤ (codep * 64 + (w.lo - 0x80)) * 64 ^ (w.count - 1)
  fits : (codep + 1) * 64 ^ w.count ≤ 2 ^ 32
  lo : 0x80 ≤ w.lo
  hi : w.hi ≤ 0xBF

instance (w : Utf8.Want) (codep : Nat) : Decidable (Underway w codep) :=
  decidable_of_iff (0x80 ≤ (codep * 64 + (w.lo - 0x80)) * 64 ^ (w.count - 1) ∧
    (codep + 1) * 64 ^ w.count ≤ 2 ^ 32 ∧ 0x80 ≤ w.lo ∧ w.hi ≤ 0xBF)
    ⟨fun h => ⟨h.1, h.2.1, h.2.2.1, h.2.2.2⟩, fun h => ⟨h.wide, h.fits, h.lo, h.hi⟩⟩

/-- The bits of a first byte. -/
theorem decode_first : ∀ byte < 256, ∀ w ∈ Utf8.first byte,
    if w.count = 0 then (0xFF >>> utf8d.getD byte 0) &&& byte = byte ∧ byte < 0x80
    else Underway w ((0xFF >>> utf8d.getD byte 0) &&& byte) ∧ 0x80 ≤ byte := by
  decide +kernel

/-- The bits of a continuation byte go below the others. -/
theorem or_shiftLeft {codep byte : Nat} (h : codep * 64 < 2 ^ 32) :
    (byte &&& 0x3F) ||| (codep <<< 6) % 2 ^ 32 = codep * 64 + byte % 64 := by
  have hand : byte &&& 0x3F = byte % 64 := Nat.and_two_pow_sub_one_eq_mod byte 6
  have hshift : codep <<< 6 = 2 ^ 6 * codep := by rw [Nat.shiftLeft_eq, Nat.mul_comm]
  have hmod : 2 ^ 6 * codep % 2 ^ 32 = 2 ^ 6 * codep := Nat.mod_eq_of_lt (by omega)
  have hor : 2 ^ 6 * codep + byte % 64 = 2 ^ 6 * codep ||| byte % 64 :=
    Nat.two_pow_add_eq_or_of_lt (Nat.mod_lt _ (by norm_num)) codep
  rw [hand, hshift, hmod, Nat.lor_comm, ← hor]
  omega

/-- **One more byte** of a code point under way: the last one makes it, past ASCII. -/
theorem decode_underway {state codep byte n lo hi : Nat} (hstate : state ≠ utf8Accept)
    (hunder : Underway ⟨n + 1, lo, hi⟩ codep) (hbyte : lo ≤ byte ∧ byte ≤ hi) :
    if n = 0 then 0x80 ≤ (decode state codep byte).2
    else Underway (Utf8.tails n) (decode state codep byte).2 := by
  obtain ⟨hwide, hfits, hlo, hhi⟩ := hunder
  simp only [Nat.add_sub_cancel] at hwide hfits hlo hhi
  have hroom : codep * 64 < 2 ^ 32 := by
    have hpow : 64 ≤ 64 ^ (n + 1) := Nat.le_self_pow (Nat.succ_ne_zero n) 64
    nlinarith
  have hcode : (decode state codep byte).2 = codep * 64 + (byte - 0x80) := by
    rw [decode, if_pos hstate, or_shiftLeft hroom]
    omega
  rw [hcode]
  have hle : codep * 64 + (lo - 0x80) ≤ codep * 64 + (byte - 0x80) := by omega
  have hnext : 0x80 ≤ (codep * 64 + (byte - 0x80)) * 64 ^ n :=
    hwide.trans (Nat.mul_le_mul_right _ hle)
  by_cases hn : n = 0
  · subst hn
    rw [if_pos rfl]
    simpa using hnext
  · obtain ⟨m, rfl⟩ := Nat.exists_eq_succ_of_ne_zero hn
    rw [if_neg hn]
    refine ⟨?_, ?_, le_refl _, le_refl _⟩
    · simp only [Utf8.tails_lo, Utf8.tails_count, Nat.sub_self, Nat.add_zero]
      rw [Nat.mul_assoc, ← Nat.pow_succ']
      exact hnext
    · calc (codep * 64 + (byte - 0x80) + 1) * 64 ^ (m + 1)
          ≤ ((codep + 1) * 64) * 64 ^ (m + 1) := Nat.mul_le_mul_right _ (by omega)
        _ = (codep + 1) * 64 ^ (m + 1 + 1) := by rw [Nat.mul_assoc, ← Nat.pow_succ']
        _ ≤ 2 ^ 32 := hfits

/-! ### The loop of `dump_escaped` -/

/-- What stands in the output for a byte of a valid string. -/
def escapeChar (c : Char) : Str := escapeCodepoint (byteOf c) c

/-- The string as it stands in the output. -/
def escape (s : Str) : Str := s.flatMap escapeChar

theorem byteOf_lt (c : Char) : byteOf c < 256 := Nat.mod_lt _ (by norm_num)

/-- Past ASCII nothing is escaped. -/
theorem escapeCodepoint_of_le {codepoint : Nat} (h : 0x80 ≤ codepoint) (c : Char) :
    escapeCodepoint codepoint c = [c] := by
  unfold escapeCodepoint
  split <;> first | omega | exact if_neg (by omega)

/-- Between two bytes the loop knows what the decoder wants. -/
structure Reading (w : Utf8.Want) (e : Escaper) : Prop where
  state : want e.state = some w
  underway : w.count ≠ 0 → Underway w e.codepoint

theorem reading_start : Reading (Utf8.tails 0) ⟨utf8Accept, 0, []⟩ where
  state := rfl
  underway h := absurd rfl h

/-- **A byte that is not wanted** is an error. -/
theorem escapeStep_throws {w : Utf8.Want} {e : Escaper} (h : Reading w e) {c : Char}
    (hc : Utf8.step w (byteOf c) = none) : Throws (escapeStep e c) .typeError := by
  have hnext : nextState e.state (byteOf c) = utf8Reject :=
    (want_eq_none_iff (nextState_lt _ _)).mp ((want_nextState h.state (byteOf_lt c)).trans hc)
  intro out
  refine ⟨out, ?_⟩
  rw [escapeStep, decode, hnext]
  rfl

/-- What `decode` makes of a byte that is wanted. -/
theorem decode_reading {w w' : Utf8.Want} {e : Escaper} (h : Reading w e) {c : Char}
    (hc : Utf8.step w (byteOf c) = some w') :
    if w'.count = 0 then
      escapeCodepoint (decode e.state e.codepoint (byteOf c)).2 c = escapeChar c
    else Underway w' (decode e.state e.codepoint (byteOf c)).2 ∧ escapeChar c = [c] := by
  obtain ⟨count, lo, hi⟩ := w
  cases count with
  | zero =>
      -- the byte is a first one, and its bits make the code point or start it
      have hstate : e.state = utf8Accept := want_count_eq_zero h.state rfl
      have hfirst := decode_first (byteOf c) (byteOf_lt c) w' hc
      rw [decode, if_neg (not_not.mpr hstate)]
      by_cases hcount : w'.count = 0
      · rw [if_pos hcount] at hfirst ⊢
        rw [hfirst.1, escapeChar]
      · rw [if_neg hcount] at hfirst ⊢
        exact ⟨hfirst.1, escapeCodepoint_of_le hfirst.2 c⟩
  | succ n =>
      have hstate : e.state ≠ utf8Accept := by
        intro heq
        have hwant := h.state
        rw [heq] at hwant
        cases hwant
      change (if lo ≤ byteOf c ∧ byteOf c ≤ hi then some (Utf8.tails n) else none) = some w' at hc
      have hrange : lo ≤ byteOf c ∧ byteOf c ≤ hi := by
        by_contra hout
        rw [if_neg hout] at hc
        cases hc
      rw [if_pos hrange] at hc
      obtain rfl := Option.some.inj hc
      have hunder := h.underway (Nat.succ_ne_zero n)
      have hnext := decode_underway hstate hunder hrange
      have hescape : escapeChar c = [c] :=
        escapeCodepoint_of_le (le_trans hunder.lo hrange.1) c
      rw [Utf8.tails_count]
      by_cases hn : n = 0
      · rw [if_pos hn] at hnext ⊢
        rw [hescape, escapeCodepoint_of_le hnext]
      · rw [if_neg hn] at hnext ⊢
        exact ⟨hnext, hescape⟩

/-- **A byte that is wanted** goes to the buffer, escaped. -/
theorem escapeStep_reading {w w' : Utf8.Want} {e : Escaper} (h : Reading w e) {c : Char}
    (hc : Utf8.step w (byteOf c) = some w') :
    ∃ e', Reading w' e' ∧ ∀ out, ∃ out', escapeStep e c out = .ok e' out' ∧
      out' ++ e'.buffer = out ++ e.buffer ++ escapeChar c := by
  have hwant : want (nextState e.state (byteOf c)) = some w' :=
    (want_nextState h.state (byteOf_lt c)).trans hc
  have hdecode := decode_reading h hc
  obtain ⟨codepoint, hcode⟩ : ∃ codepoint, decode e.state e.codepoint (byteOf c)
      = (nextState e.state (byteOf c), codepoint) := ⟨_, rfl⟩
  rw [hcode] at hdecode
  by_cases hcount : w'.count = 0
  · -- a code point is complete, and the buffer may be written out
    rw [if_pos hcount] at hdecode
    have haccept : nextState e.state (byteOf c) = utf8Accept := want_count_eq_zero hwant hcount
    by_cases hfull : 512 - (e.buffer ++ escapeCodepoint codepoint c).length < 13
    · refine ⟨⟨utf8Accept, codepoint, []⟩, ⟨haccept ▸ hwant, absurd hcount⟩, ?_⟩
      intro out
      refine ⟨out ++ (e.buffer ++ escapeCodepoint codepoint c), ?_, ?_⟩
      · rw [escapeStep, hcode, haccept]
        simp only [if_pos, hfull]
        rfl
      · rw [List.append_nil, ← List.append_assoc, hdecode]
    · refine ⟨⟨utf8Accept, codepoint, e.buffer ++ escapeCodepoint codepoint c⟩,
        ⟨haccept ▸ hwant, absurd hcount⟩, ?_⟩
      intro out
      refine ⟨out, ?_, ?_⟩
      · rw [escapeStep, hcode, haccept]
        simp only [if_pos, if_neg hfull]
        rfl
      · rw [← List.append_assoc, hdecode]
  · rw [if_neg hcount] at hdecode
    have haccept : nextState e.state (byteOf c) ≠ utf8Accept := by
      intro heq
      rw [heq] at hwant
      obtain rfl := Option.some.inj hwant
      exact hcount rfl
    have hreject : nextState e.state (byteOf c) ≠ utf8Reject := by
      intro heq
      rw [heq] at hwant
      cases hwant
    refine ⟨⟨nextState e.state (byteOf c), codepoint, e.buffer ++ [c]⟩,
      ⟨hwant, fun _ => hdecode.1⟩, ?_⟩
    intro out
    refine ⟨out, ?_, ?_⟩
    · rw [escapeStep, hcode]
      simp only [if_neg haccept, if_neg hreject]
      rfl
    · rw [← List.append_assoc, hdecode.2]

/-- **The loop** on what the decoder accepts. -/
theorem foldlM_escapeStep {w : Utf8.Want} {e : Escaper} (h : Reading w e) {s : Str}
    (hs : Utf8.Accepts w (s.map byteOf)) (out : Str) :
    ∃ e' out', s.foldlM escapeStep e out = .ok e' out' ∧ e'.state = utf8Accept ∧
      out' ++ e'.buffer = out ++ e.buffer ++ escape s := by
  induction s generalizing w e out with
  | nil =>
      rw [List.map_nil, Utf8.accepts_nil_iff] at hs
      subst hs
      exact ⟨e, out, rfl, want_eq_start_iff.mp h.state, (List.append_nil _).symm⟩
  | cons c s ih =>
      rw [List.map_cons, Utf8.accepts_cons_iff] at hs
      obtain ⟨w', hc, hs⟩ := hs
      obtain ⟨e₁, he₁, hstep⟩ := escapeStep_reading h hc
      obtain ⟨out₁, hout₁, hbuf₁⟩ := hstep out
      obtain ⟨e', out', hrun, haccept, hbuf⟩ := ih he₁ hs out₁
      refine ⟨e', out', ?_, haccept, ?_⟩
      · rw [List.foldlM_cons, bind_of_ok hout₁]
        exact hrun
      · rw [hbuf, hbuf₁, escape, escape, List.flatMap_cons, List.append_assoc]

/-- **The loop** on what the decoder does not accept: it throws, or stops underway. -/
theorem foldlM_escapeStep_not {w : Utf8.Want} {e : Escaper} (h : Reading w e) {s : Str}
    (hs : ¬ Utf8.Accepts w (s.map byteOf)) (out : Str) :
    (∃ out', s.foldlM escapeStep e out = .error .typeError out') ∨
      ∃ e' out', s.foldlM escapeStep e out = .ok e' out' ∧ e'.state ≠ utf8Accept := by
  induction s generalizing w e out with
  | nil =>
      rw [List.map_nil, Utf8.accepts_nil_iff] at hs
      refine Or.inr ⟨e, out, rfl, ?_⟩
      intro heq
      have hstart := want_eq_start_iff.mpr heq
      exact hs (Option.some.inj (h.state.symm.trans hstart))
  | cons c s ih =>
      rw [List.map_cons, Utf8.accepts_cons_iff] at hs
      rw [List.foldlM_cons]
      cases hc : Utf8.step w (byteOf c) with
      | none =>
          obtain ⟨out', hout'⟩ := escapeStep_throws h hc out
          exact Or.inl ⟨out', bind_of_error hout' _⟩
      | some w' =>
          obtain ⟨e₁, he₁, hstep⟩ := escapeStep_reading h hc
          obtain ⟨out₁, hout₁, -⟩ := hstep out
          rw [bind_of_ok hout₁]
          exact ih he₁ (fun hrest => hs ⟨w', hc, hrest⟩) out₁

/-- **A string is written, escaped, exactly when it is valid UTF-8.** -/
theorem dumpEscaped_prints (s : Str) : Prints (ValidUtf8 s) (dumpEscaped s) (escape s) where
  writes hs out := by
    have haccepts := (Utf8.accepts_iff _).mpr hs
    obtain ⟨e', out', hrun, haccept, hbuf⟩ := foldlM_escapeStep reading_start haccepts out
    rw [List.append_nil] at hbuf
    rw [dumpEscaped, bind_of_ok hrun, ← hbuf]
    simp only [if_pos haccept]
    by_cases hempty : 0 < e'.buffer.length
    · rw [if_pos hempty]
      rfl
    · rw [if_neg hempty, List.eq_nil_of_length_eq_zero (Nat.eq_zero_of_not_pos hempty),
        List.append_nil]
      rfl
  throws hs out := by
    have hnot := fun h => hs ((Utf8.accepts_iff _).mp h)
    rw [dumpEscaped]
    rcases foldlM_escapeStep_not reading_start hnot out with ⟨out', hrun⟩ | ⟨e', out', hrun, hne⟩
    · exact ⟨out', bind_of_error hrun _⟩
    · rw [bind_of_ok hrun]
      simp only [if_neg hne]
      exact ⟨out', rfl⟩

/-! ## Integers -/

/-- `digits_to_99`: entry `i` is at `2 * i`. -/
def digitsTo99 : Str :=
  ("0001020304050607080910111213141516171819" ++ "2021222324252627282930313233343536373839"
    ++ "4041424344454647484950515253545556575859" ++ "6061626364656667686970717273747576777879"
    ++ "8081828384858687888990919293949596979899").toList

/-- `count_digits`. -/
def countDigits (x nDigits : Nat) : Nat :=
  if x < 10 then nDigits
  else if x < 100 then nDigits + 1
  else if x < 1000 then nDigits + 2
  else if x < 10000 then nDigits + 3
  else countDigits (x / 10000) (nDigits + 4)

/-- The loop of `dump_integer`, two digits a turn, and the branches behind it: what stands
    from `buffer_ptr` on. -/
def fillDigits (absValue : Nat) (filled : Str) : Str :=
  if 100 ≤ absValue then
    fillDigits (absValue / 100) (digitsTo99.getD (2 * (absValue % 100)) ' '
      :: digitsTo99.getD (2 * (absValue % 100) + 1) ' ' :: filled)
  else if 10 ≤ absValue then
    digitsTo99.getD (2 * absValue) ' ' :: digitsTo99.getD (2 * absValue + 1) ' ' :: filled
  else Char.ofNat ('0'.toNat + absValue) :: filled

/-- `dump_integer`, on what the last number has left in the buffer: the characters written,
    the first `n_chars` of the buffer. -/
def dumpInteger (numberBuffer : Str) (x : Int) : Str :=
  if x = 0 then ['0']
  else
    let isNegative := ¬ x ≥ 0
    let buffer := if isNegative then numberBuffer.set 0 '-' else numberBuffer
    let nChars := if isNegative then 1 + countDigits x.natAbs 1 else countDigits x.natAbs 1
    let filled := fillDigits x.natAbs []
    (buffer.take (nChars - filled.length) ++ filled).take nChars

/-- A number in decimal. -/
def decimal (x : Int) : Str :=
  if x < 0 then '-' :: Nat.toDigits 10 x.natAbs else Nat.toDigits 10 x.natAbs

/-- **The loop writes the digits**, in front of what is there. -/
theorem fillDigits_eq (n : Nat) (filled : Str) :
    fillDigits n filled = Nat.toDigits 10 n ++ filled := by
  have htable : ∀ i < 100, digitsTo99.getD (2 * i) ' ' = Nat.digitChar (i / 10)
      ∧ digitsTo99.getD (2 * i + 1) ' ' = Nat.digitChar (i % 10) := by
    decide +kernel
  fun_induction fillDigits n filled with
  | case1 n filled hn ih =>
      obtain ⟨htens, hones⟩ := htable (n % 100) (Nat.mod_lt _ (by norm_num))
      rw [ih, htens, hones, Nat.toDigits_eq_if (n := n) (by norm_num), if_neg (by omega),
        Nat.toDigits_eq_if (n := n / 10) (by norm_num), if_neg (by omega), Nat.div_div_eq_div_mul,
        show n % 100 / 10 = n / 10 % 10 by omega, show n % 100 % 10 = n % 10 by omega]
      simp
  | case2 n filled hn hn' =>
      obtain ⟨htens, hones⟩ := htable n (by omega)
      rw [htens, hones, Nat.toDigits_eq_if (n := n) (by norm_num), if_neg (by omega),
        Nat.toDigits_of_lt_base (by omega)]
      rfl
  | case3 n filled hn hn' =>
      have hdigit : ∀ i < 10, Char.ofNat ('0'.toNat + i) = Nat.digitChar i := by decide
      rw [hdigit n (by omega), Nat.toDigits_of_lt_base (by omega)]
      rfl

/-- **The digits are counted** right. -/
theorem countDigits_eq (x nDigits : Nat) :
    countDigits x nDigits + 1 = (Nat.toDigits 10 x).length + nDigits := by
  have hstep : ∀ y, 10 ≤ y →
      (Nat.toDigits 10 y).length = (Nat.toDigits 10 (y / 10)).length + 1 := by
    intro y hy
    rw [Nat.toDigits_eq_if (n := y) (by norm_num), if_neg (by omega), List.length_append]
    rfl
  have hlast : ∀ y, y < 10 → (Nat.toDigits 10 y).length = 1 := by
    intro y hy
    rw [Nat.toDigits_of_lt_base hy]
    rfl
  fun_induction countDigits x nDigits with
  | case1 x nDigits h => rw [hlast x h, Nat.add_comm]
  | case2 x nDigits h h1 => rw [hstep x (by omega), hlast _ (by omega)]; omega
  | case3 x nDigits h h1 h2 =>
      rw [hstep x (by omega), hstep _ (by omega), hlast _ (by omega)]
      omega
  | case4 x nDigits h h1 h2 h3 =>
      rw [hstep x (by omega), hstep _ (by omega), hstep _ (by omega), hlast _ (by omega)]
      omega
  | case5 x nDigits h h1 h2 h3 ih =>
      rw [hstep x (by omega), hstep _ (by omega), hstep _ (by omega), hstep _ (by omega),
        show x / 10 / 10 / 10 / 10 = x / 10000 by omega]
      omega

/-- **`dump_integer`** writes the number, and nothing that the buffer held before. -/
theorem dumpInteger_eq {numberBuffer : Str} (h : numberBuffer ≠ []) (x : Int) :
    dumpInteger numberBuffer x = decimal x := by
  have hcount : countDigits x.natAbs 1 = (Nat.toDigits 10 x.natAbs).length := by
    have := countDigits_eq x.natAbs 1
    omega
  rw [dumpInteger, decimal]
  by_cases hzero : x = 0
  · subst hzero
    rfl
  · rw [if_neg hzero]
    simp only [fillDigits_eq, List.append_nil, hcount, ge_iff_le, not_le]
    by_cases hneg : x < 0
    · obtain ⟨c, rest, rfl⟩ := List.exists_cons_of_ne_nil h
      rw [if_pos hneg, if_pos hneg, if_pos hneg, Nat.add_sub_cancel, List.set_cons_zero,
        List.take_succ_cons, List.take_zero, List.singleton_append, Nat.add_comm,
        List.take_succ_cons, List.take_length]
    · rw [if_neg hneg, if_neg hneg, if_neg hneg, Nat.sub_self, List.take_zero, List.nil_append,
        List.take_length]

/-- `number_buffer`, as a new serializer has it. -/
def numberBuffer : Str := List.replicate 64 '\x00'

/-! ## Values -/

/-- The first `n` characters of the indentation string. -/
def indentation (n : Nat) : Str := List.replicate n ' '

/-- The width that the `Dump` functions set. -/
def indentStep : Nat := 2

/-- What is written between an element and those that follow it. -/
def separate {α : Type} (rest : List α) : Print Unit :=
  if rest.isEmpty then return () else write [',', '\n']

section Values

variable (dumpFloat : ℚ → Str)

mutual

/-- `dump`, as `operator<<` calls it for a stream with a width; `dumpFloat` is the text
    of a number. -/
def dump (currentIndent : Nat) : Json → Print Unit
  | .null => write "null".toList
  | .bool b => if b then write "true".toList else write "false".toList
  | .str s => do
      write ['"']
      dumpEscaped s
      write ['"']
  | .int i => write (dumpInteger numberBuffer i.toInt)
  | .uint n => write (dumpInteger numberBuffer n.toNat)
  | .num q => write (dumpFloat q)
  | .arr elems =>
      if elems.isEmpty then write ['[', ']']
      else do
        write ['[', '\n']
        dumpElems (currentIndent + indentStep) elems
        write ['\n']
        write (indentation currentIndent)
        write [']']
  | .obj fields =>
      if fields.isEmpty then write ['{', '}']
      else do
        write ['{', '\n']
        dumpFields (currentIndent + indentStep) fields
        write ['\n']
        write (indentation currentIndent)
        write ['}']

/-- The elements of an array, all but the last with a comma. -/
def dumpElems (newIndent : Nat) : List Json → Print Unit
  | [] => return ()
  | v :: rest => do
      write (indentation newIndent)
      dump newIndent v
      separate rest
      dumpElems newIndent rest

/-- The fields of an object, all but the last with a comma. -/
def dumpFields (newIndent : Nat) : List (Str × Json) → Print Unit
  | [] => return ()
  | (k, v) :: rest => do
      write (indentation newIndent)
      write ['"']
      dumpEscaped k
      write ['"', ':', ' ']
      dump newIndent v
      separate rest
      dumpFields newIndent rest

end

mutual

/-- The text of a value. -/
def text (currentIndent : Nat) : Json → Str
  | .null => "null".toList
  | .bool b => if b then "true".toList else "false".toList
  | .str s => ['"'] ++ escape s ++ ['"']
  | .int i => decimal i.toInt
  | .uint n => decimal n.toNat
  | .num q => dumpFloat q
  | .arr elems =>
      if elems.isEmpty then ['[', ']']
      else ['[', '\n']
        ++ List.intercalate [',', '\n'] (elemTexts (currentIndent + indentStep) elems)
        ++ ['\n'] ++ indentation currentIndent ++ [']']
  | .obj fields =>
      if fields.isEmpty then ['{', '}']
      else ['{', '\n']
        ++ List.intercalate [',', '\n'] (fieldTexts (currentIndent + indentStep) fields)
        ++ ['\n'] ++ indentation currentIndent ++ ['}']

def elemTexts (newIndent : Nat) : List Json → List Str
  | [] => []
  | v :: rest => (indentation newIndent ++ text newIndent v) :: elemTexts newIndent rest

def fieldTexts (newIndent : Nat) : List (Str × Json) → List Str
  | [] => []
  | (k, v) :: rest =>
      (indentation newIndent ++ (['"'] ++ escape k ++ ['"', ':', ' ']) ++ text newIndent v)
        :: fieldTexts newIndent rest

end

end Values

mutual

/-- Every string of the value is valid, keys included. -/
def AllUtf8 : Json → Prop
  | .null => True
  | .bool _ => True
  | .str s => ValidUtf8 s
  | .int _ => True
  | .uint _ => True
  | .num _ => True
  | .arr elems => ElemsUtf8 elems
  | .obj fields => FieldsUtf8 fields

def ElemsUtf8 : List Json → Prop
  | [] => True
  | v :: rest => AllUtf8 v ∧ ElemsUtf8 rest

def FieldsUtf8 : List (Str × Json) → Prop
  | [] => True
  | (k, v) :: rest => (ValidUtf8 k ∧ AllUtf8 v) ∧ FieldsUtf8 rest

end

/-! ### A value is written exactly when its strings are valid -/

theorem prints_pure : Prints True (pure ()) [] where
  writes _ out := by
    rw [List.append_nil]
    rfl
  throws h := absurd trivial h

/-- A separator stands between two elements. -/
theorem prints_separate {α : Type} (rest : List α) :
    Prints True (separate rest) (if rest.isEmpty then [] else [',', '\n']) := by
  rw [separate]
  split_ifs
  · exact prints_pure
  · exact prints_write _

/-- Joining, as a loop does it. -/
theorem intercalate_cons (sep t : Str) (ts : List Str) :
    List.intercalate sep (t :: ts)
      = t ++ (if ts.isEmpty then [] else sep) ++ List.intercalate sep ts := by
  cases ts with
  | nil => simp
  | cons t' ts => simp

theorem isEmpty_elemTexts (dumpFloat : ℚ → Str) (n : Nat) (elems : List Json) :
    (elemTexts dumpFloat n elems).isEmpty = elems.isEmpty := by
  cases elems <;> rfl

theorem isEmpty_fieldTexts (dumpFloat : ℚ → Str) (n : Nat) (fields : List (Str × Json)) :
    (fieldTexts dumpFloat n fields).isEmpty = fields.isEmpty := by
  cases fields <;> rfl

section Values

variable (dumpFloat : ℚ → Str)

/-- An array or object that is not empty, by what is between the brackets. -/
theorem prints_bracketed {ok : Prop} {inner : Print Unit} {t : Str} (h : Prints ok inner t)
    (opening closing : Str) (currentIndent : Nat) :
    Prints ok (do
        write (opening ++ ['\n'])
        inner
        write ['\n']
        write (indentation currentIndent)
        write closing)
      (opening ++ ['\n'] ++ t ++ ['\n'] ++ indentation currentIndent ++ closing) := by
  have hclose := (prints_write ['\n']).bind
    ((prints_write (indentation currentIndent)).bind (prints_write closing))
  exact ((prints_write (opening ++ ['\n'])).bind (h.bind hclose)).congr (by simp) (by simp)

mutual

/-- **A value is written exactly when all of its strings are valid UTF-8.** -/
theorem dump_prints (n : Nat) : ∀ j : Json,
    Prints (AllUtf8 j) (dump dumpFloat n j) (text dumpFloat n j)
  | .null => by
      rw [dump, text, AllUtf8]
      exact prints_write _
  | .bool b => by
      rw [dump, text, AllUtf8]
      cases b <;> exact prints_write _
  | .str s => by
      rw [dump, text, AllUtf8]
      have h := (prints_write ['"']).bind ((dumpEscaped_prints s).bind (prints_write ['"']))
      exact h.congr (by simp) (by simp)
  | .int i => by
      rw [dump, text, AllUtf8, dumpInteger_eq (by decide)]
      exact prints_write _
  | .uint n => by
      rw [dump, text, AllUtf8, dumpInteger_eq (by decide)]
      exact prints_write _
  | .num q => by
      rw [dump, text, AllUtf8]
      exact prints_write _
  | .arr elems => by
      rw [dump, text, AllUtf8]
      cases hempty : elems.isEmpty with
      | true =>
          rw [List.isEmpty_iff.mp hempty]
          exact prints_write _
      | false => exact prints_bracketed (dumpElems_prints (n + indentStep) elems) ['['] [']'] n
  | .obj fields => by
      rw [dump, text, AllUtf8]
      cases hempty : fields.isEmpty with
      | true =>
          rw [List.isEmpty_iff.mp hempty]
          exact prints_write _
      | false => exact prints_bracketed (dumpFields_prints (n + indentStep) fields) ['{'] ['}'] n

/-- The elements of an array print their texts. -/
theorem dumpElems_prints (n : Nat) : ∀ elems : List Json,
    Prints (ElemsUtf8 elems) (dumpElems dumpFloat n elems)
      (List.intercalate [',', '\n'] (elemTexts dumpFloat n elems))
  | [] => by
      rw [ElemsUtf8]
      exact prints_pure
  | v :: rest => by
      have h := (prints_write (indentation n)).bind ((dump_prints n v).bind
        ((prints_separate rest).bind (dumpElems_prints n rest)))
      refine h.congr ?_ ?_
      · rw [ElemsUtf8]
        simp
      · rw [elemTexts, intercalate_cons, isEmpty_elemTexts]
        simp

/-- The members of an object print theirs, key first. -/
theorem dumpFields_prints (n : Nat) : ∀ fields : List (Str × Json),
    Prints (FieldsUtf8 fields) (dumpFields dumpFloat n fields)
      (List.intercalate [',', '\n'] (fieldTexts dumpFloat n fields))
  | [] => by
      rw [FieldsUtf8]
      exact prints_pure
  | (k, v) :: rest => by
      have hrest := (dump_prints n v).bind
        ((prints_separate rest).bind (dumpFields_prints n rest))
      have h := (prints_write (indentation n)).bind ((prints_write ['"']).bind
        ((dumpEscaped_prints k).bind ((prints_write ['"', ':', ' ']).bind hrest)))
      refine h.congr ?_ ?_
      · rw [FieldsUtf8]
        simp [and_assoc]
      · rw [fieldTexts, intercalate_cons, isEmpty_fieldTexts]
        simp

end

/-- `std::cout << std::setw(2) << result << std::endl`. -/
def printJson (result : Json) : Print Unit := do
  dump dumpFloat 0 result
  write ['\n']

/-- The line that shows a value. -/
def jsonLine (result : Json) : Str := text dumpFloat 0 result ++ ['\n']

/-- **A value is printed exactly when** all of its strings are valid. -/
theorem printJson_prints (result : Json) :
    Prints (AllUtf8 result) (printJson dumpFloat result) (jsonLine dumpFloat result) :=
  ((dump_prints dumpFloat 0 result).bind (prints_write ['\n'])).congr (by simp) rfl

theorem elemTexts_eq (n : Nat) (elems : List Json) :
    elemTexts dumpFloat n elems = elems.map fun j => indentation n ++ text dumpFloat n j := by
  induction elems with
  | nil => rfl
  | cons j elems ih => rw [elemTexts, ih, List.map_cons]

end Values

theorem elemsUtf8_iff (elems : List Json) : ElemsUtf8 elems ↔ ∀ j ∈ elems, AllUtf8 j := by
  induction elems with
  | nil => simp [ElemsUtf8]
  | cons j elems ih => rw [ElemsUtf8, ih, List.forall_mem_cons]

/-- A list of names is valid if each name is. -/
theorem allUtf8_ofNames (names : List Str) :
    AllUtf8 (.ofNames names) ↔ ∀ name ∈ names, ValidUtf8 name := by
  rw [Json.ofNames, AllUtf8, elemsUtf8_iff, List.forall_mem_map]
  simp only [AllUtf8]

end TgnewsSerializer
