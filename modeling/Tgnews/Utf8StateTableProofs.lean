import Tgnews.Utf8Proofs
import Mathlib.Order.Bounds.Basic

/-! # The scan for interchange-valid text (`utf8statetable.cc`, `utf8acceptinterchange.h`)

    The language identifier cuts its input at the first byte that is not part of a character
    it may see.  The scan is driven by a table of seventeen states, skips eight bytes at a
    time where it can, backs up over a character that it could not finish, and starts again
    when the table tells it to.  The route:

    * `fastScan_spec` — the arithmetic on words of four bytes passes over single-byte
      characters only;
    * `completes_first_iff` — the states of the table accept the encodings of the valid characters;
    * `byteScan_spec` — one run of the loop over the table, up to its exit;
    * **`spanInterchangeValid_isGreatest`** — the result is the length of the longest prefix
      that is interchange-valid UTF-8. -/

namespace TgnewsUtf8StateTable

open Utf8

/-! ## The scan -/

/-- `UTF8ScanObj`, as far as a scan reads it. -/
structure UTF8ScanObj where
  state0 : Nat
  state0Size : Nat
  entryShift : Nat
  losub : Nat
  hiadd : Nat
  stateTable : List Nat
  fastState : List Nat

def kExitIllegalStructure : Nat := 240
def kExitOK : Nat := 241
def kExitReject : Nat := 242
def kExitDoAgain : Nat := 253

/-- `UNALIGNED_LOAD32`; the lowest byte is the first. -/
def load32 (bytes : List Nat) (src : Nat) : Option Nat := do
  let b0 ← bytes[src]?
  let b1 ← bytes[src + 1]?
  let b2 ← bytes[src + 2]?
  let b3 ← bytes[src + 3]?
  return b0 + 2 ^ 8 * b1 + 2 ^ 16 * b2 + 2 ^ 24 * b3

def sub32 (a b : Nat) : Nat := (a + (2 ^ 32 - b)) % 2 ^ 32

def add32 (a b : Nat) : Nat := (a + b) % 2 ^ 32

/-- The entries of `fast_state` for four bytes, joined. -/
def fastOr (st : UTF8ScanObj) (bytes : List Nat) (src : Nat) : Option Nat := do
  let e0 ← st.fastState[← bytes[src]?]?
  let e1 ← st.fastState[← bytes[src + 1]?]?
  let e2 ← st.fastState[← bytes[src + 2]?]?
  let e3 ← st.fastState[← bytes[src + 3]?]?
  return (e0 ||| e1) ||| (e2 ||| e3)

/-- The fast range check for a group of eight bytes, which may fail them all. -/
def fastCheck (st : UTF8ScanObj) (s0123 s4567 : Nat) : Bool :=
  let temp := sub32 s0123 st.losub ||| add32 s0123 st.hiadd |||
    sub32 s4567 st.losub ||| add32 s4567 st.hiadd
  temp &&& 0x80808080 == 0

/-- Where the loop over groups breaks off in the group at `src`, if it does. -/
def fastExit (st : UTF8ScanObj) (bytes : List Nat) (src : Nat) : Option (Option Nat) := do
  let s0123 ← load32 bytes src
  let s4567 ← load32 bytes (src + 4)
  match fastCheck st s0123 s4567 with
  | true => return none
  | false =>
      if (← fastOr st bytes src) ≠ 0 then return some src
      else if (← fastOr st bytes (src + 4)) ≠ 0 then return some (src + 4)
      else return none

/-- The loop over groups of eight bytes; its result is where it leaves `src`. -/
def fastScan (st : UTF8ScanObj) (bytes : List Nat) (src : Nat) : Option Nat :=
  if src + 7 < bytes.length then do
    match ← fastExit st bytes src with
    | some src => return src
    | none => fastScan st bytes (src + 8)
  else return src
termination_by bytes.length - src

/-- The loop over bytes: where it leaves `src` and `Tbl`, and the last entry it read. -/
def byteScan (st : UTF8ScanObj) (bytes : List Nat) (src tbl e : Nat) :
    Option (Nat × Nat × Nat) :=
  if src < bytes.length then do
    let c ← bytes[src]?
    let e ← st.stateTable[st.state0 + tbl + c]?
    if kExitIllegalStructure ≤ e then return (src + 1, tbl, e)
    byteScan st bytes (src + 1) (e <<< st.entryShift) e
  else return (src, tbl, e)
termination_by bytes.length - src

/-- `InStateZero`. -/
def inStateZero (st : UTF8ScanObj) (tbl : Nat) : Bool := tbl < st.state0Size

/-- `do {src--;} while ((src > isrc) && ((src[0] & 0xc0) == 0x80))`. -/
def backUp (bytes : List Nat) : Nat → Option Nat
  | 0 => none
  | src + 1 =>
      if 0 < src then do
        if isContinuation (← bytes[src]?) then backUp bytes src else return src
      else return src

/-- The exits of the loops: back over the character that was not finished. -/
def leave (st : UTF8ScanObj) (bytes : List Nat) : Nat × Nat × Nat → Option (Nat × Nat)
  | (src, tbl, e) =>
      if kExitIllegalStructure ≤ e then
        if inStateZero st tbl then return (src - 1, e) else return (← backUp bytes (src - 1), e)
      else if inStateZero st tbl then return (src, kExitOK)
      else return (← backUp bytes src, kExitIllegalStructure)

/-- The label `DoAgain`, for a number of jumps to it: the bytes consumed and the exit
    reason. -/
def doAgain (st : UTF8ScanObj) (bytes : List Nat) : Nat → Nat → Option (Nat × Nat)
  | 0, _ => none
  | jumps + 1, src => do
      let src ← fastScan st bytes src
      let (src, e) ← leave st bytes (← byteScan st bytes src 0 0)
      if e = kExitDoAgain then doAgain st bytes jumps src else return (src, e)

/-- `UTF8GenericScan`. -/
def genericScan (st : UTF8ScanObj) (bytes : List Nat) (jumps : Nat) : Option (Nat × Nat) :=
  if bytes.length = 0 then return (0, kExitOK) else doAgain st bytes jumps 0

/-! ### The table -/

/-- A row written as runs: how often an entry comes, and the entry. -/
def expand (runs : List (Nat × Nat)) : List Nat :=
  runs.flatMap fun run => List.replicate run.1 run.2

/-- The rows of the states zero to three, which count the single bytes. -/
def zeroRow (single : Nat) : List (Nat × Nat) :=
  let RJ := kExitReject
  let X := kExitIllegalStructure
  [(9, RJ), (2, single), (1, RJ), (2, single), (18, RJ), (95, single), (1, RJ), (66, X),
    (1, 7), (29, 4), (1, 5), (12, 6), (1, 8), (1, 6), (1, 10), (1, 13), (3, 15), (1, 16), (11, X)]

/-- The rows of `utf8acceptinterchange`. -/
def utf8acceptinterchangeRows : List (List (Nat × Nat)) :=
  let RJ := kExitReject
  let X := kExitIllegalStructure
  [zeroRow 1, zeroRow 2, zeroRow 3, zeroRow kExitDoAgain,
    [(128, X), (64, 0), (64, X)],
    [(160, X), (32, 4), (64, X)],
    [(128, X), (64, 4), (64, X)],
    [(128, X), (32, RJ), (32, 0), (64, X)],
    [(128, X), (32, 4), (32, 9), (64, X)],
    [(128, X), (64, RJ), (64, X)],
    [(128, X), (55, 4), (1, 11), (7, 4), (1, 12), (64, X)],
    [(128, X), (16, 0), (32, RJ), (16, 0), (64, X)],
    [(128, X), (62, 0), (2, RJ), (64, X)],
    [(144, X), (15, 6), (1, 14), (15, 6), (1, 14), (15, 6), (1, 14), (64, X)],
    [(128, X), (63, 4), (1, 12), (64, X)],
    [(128, X), (15, 6), (1, 14), (15, 6), (1, 14), (15, 6), (1, 14), (15, 6), (1, 14), (64, X)],
    [(128, X), (15, 6), (1, 14), (112, X)]]

/-- `utf8acceptinterchange_obj`. -/
def utf8acceptinterchangeObj : UTF8ScanObj where
  state0 := 0
  state0Size := 1024
  entryShift := 8
  losub := 0x20202020
  hiadd := 0x01010101
  stateTable := utf8acceptinterchangeRows.flatMap expand
  fastState := expand [(9, 1), (2, 0), (1, 1), (2, 0), (18, 1), (95, 0), (129, 1)]

/-- `SpanInterchangeValid`, on the `byte_length` bytes at `src`. -/
def spanInterchangeValid (bytes : List Nat) (jumps : Nat) : Option Nat := do
  let (bytesConsumed, _) ← genericScan utf8acceptinterchangeObj bytes jumps
  return bytesConsumed

/-! ## Interchange-valid text -/

/-- A value below 0x80 that is no control, or is a tab, line feed, form feed or carriage
    return. -/
def Single (b : Nat) : Prop :=
  0x20 ≤ b ∧ b ≤ 0x7E ∨ b = 0x9 ∨ b = 0xA ∨ b = 0xC ∨ b = 0xD

instance : DecidablePred Single := fun b =>
  inferInstanceAs (Decidable (0x20 ≤ b ∧ b ≤ 0x7E ∨ b = 0x9 ∨ b = 0xA ∨ b = 0xC ∨ b = 0xD))

/-- A character that may be interchanged: neither a control nor a noncharacter. -/
structure InterchangeValid (c : Char) : Prop where
  control : Single c.toNat ∨ 0xA0 ≤ c.toNat
  arabic : ¬ (0xFDD0 ≤ c.toNat ∧ c.toNat ≤ 0xFDEF)
  last : c.toNat % 0x10000 < 0xFFFE

/-- The bytes encode interchange-valid characters. -/
def Interchange (bytes : List Nat) : Prop := Encodes InterchangeValid bytes

/-! ## The group of eight -/

/-- The bits that the fast check looks at. -/
theorem bits_of_fastCheck {a b c d : Nat} (h : (a ||| b ||| c ||| d) &&& 0x80808080 = 0) :
    ∀ i ∈ [7, 15, 23, 31], a.testBit i = false ∧ b.testBit i = false ∧
      c.testBit i = false ∧ d.testBit i = false := by
  intro i hi
  have hmask : (0x80808080 : Nat).testBit i = true := by
    revert i
    decide
  have hbit := congrArg (fun n => n.testBit i) h
  simp only [Nat.testBit_and, Nat.testBit_or, hmask, Bool.and_true, Nat.zero_testBit,
    Bool.or_eq_false_iff] at hbit
  exact ⟨hbit.1.1.1, hbit.1.1.2, hbit.1.2, hbit.2⟩

theorem div_mod_of_testBit {x i : Nat} (h : x.testBit i = false) : x / 2 ^ i % 2 = 0 := by
  rw [Nat.testBit_eq_decide_div_mod_eq, decide_eq_false_iff_not] at h
  omega

/-- **A word of four bytes**: if no byte sets its high bit in the difference or in the sum,
    there is no borrow and no carry, and all are printable. -/
theorem printable_of_word {b0 b1 b2 b3 : Nat} (h0 : b0 < 256) (h1 : b1 < 256) (h2 : b2 < 256)
    (h3 : b3 < 256)
    (hbits : ∀ i ∈ [7, 15, 23, 31],
      (sub32 (b0 + 2 ^ 8 * b1 + 2 ^ 16 * b2 + 2 ^ 24 * b3) 0x20202020).testBit i = false ∧
      (add32 (b0 + 2 ^ 8 * b1 + 2 ^ 16 * b2 + 2 ^ 24 * b3) 0x01010101).testBit i = false) :
    (0x20 ≤ b0 ∧ b0 ≤ 0x7E) ∧ (0x20 ≤ b1 ∧ b1 ≤ 0x7E) ∧ (0x20 ≤ b2 ∧ b2 ≤ 0x7E) ∧
      (0x20 ≤ b3 ∧ b3 ≤ 0x7E) := by
  have hsub : ∀ i ∈ [7, 15, 23, 31], _ := fun i hi => div_mod_of_testBit (hbits i hi).1
  have hadd : ∀ i ∈ [7, 15, 23, 31], _ := fun i hi => div_mod_of_testBit (hbits i hi).2
  simp only [List.forall_mem_cons, sub32, add32] at hsub hadd
  obtain ⟨s0, s1, s2, s3, -⟩ := hsub
  obtain ⟨a0, a1, a2, a3, -⟩ := hadd
  -- the lowest byte first: its bits depend on no other byte
  have hb0 : 0x20 ≤ b0 ∧ b0 ≤ 0x7E := by
    clear s1 s2 s3 a1 a2 a3
    omega
  have hb1 : 0x20 ≤ b1 ∧ b1 ≤ 0x7E := by
    clear s0 s2 s3 a0 a2 a3
    omega
  have hb2 : 0x20 ≤ b2 ∧ b2 ≤ 0x7E := by
    clear s0 s1 s3 a0 a1 a3
    omega
  have hb3 : 0x20 ≤ b3 ∧ b3 ≤ 0x7E := by
    clear s0 s1 s2 a0 a1 a2
    omega
  exact ⟨hb0, hb1, hb2, hb3⟩

/-- The entry at a place, found by the lengths of the runs. -/
def lookup : List (Nat × Nat) → Nat → Option Nat
  | [], _ => none
  | (n, e) :: runs, i => if i < n then some e else lookup runs (i - n)

/-- An entry of the table is looked up in its runs. -/
theorem getElem?_expand (runs : List (Nat × Nat)) (i : Nat) :
    (expand runs)[i]? = lookup runs i := by
  induction runs generalizing i with
  | nil => rfl
  | cons run runs ih =>
      rw [expand, List.flatMap_cons, lookup]
      by_cases hi : i < run.1
      · rw [if_pos hi, List.getElem?_append_left (by simpa using hi), List.getElem?_replicate,
          if_pos hi]
      · rw [if_neg hi, List.getElem?_append_right (by simpa using Nat.le_of_not_lt hi),
          List.length_replicate]
        exact ih _

section FastScan

/-- The fast check and the fast table say the same of a byte. -/
structure FastAscii (st : UTF8ScanObj) : Prop where
  losub : st.losub = 0x20202020
  hiadd : st.hiadd = 0x01010101
  fastState : ∀ b < 256, st.fastState[b]? = some (if Single b then 0 else 1)

variable {st : UTF8ScanObj} (hst : FastAscii st) {bytes : List Nat}
  (hbytes : ∀ b ∈ bytes, b < 256)

include hst hbytes

omit hst in
/-- A byte of the text. -/
theorem byteAt {i : Nat} (hi : i < bytes.length) : ∃ b, bytes[i]? = some b ∧ b < 256 :=
  ⟨bytes[i], List.getElem?_eq_getElem hi, hbytes _ (List.getElem_mem hi)⟩

/-- Its entry in `fast_state`. -/
theorem fastEntry {i : Nat} (hi : i < bytes.length) :
    ∃ b, bytes[i]? = some b ∧ st.fastState[b]? = some (if Single b then 0 else 1) := by
  obtain ⟨b, hb, hlt⟩ := byteAt hbytes hi
  exact ⟨b, hb, hst.fastState b hlt⟩

/-- Four entries are all zero exactly on four single bytes. -/
theorem fastOr_spec {src : Nat} (hsrc : src + 3 < bytes.length) :
    ∃ e, fastOr st bytes src = some e ∧
      (e = 0 → ∀ i, src ≤ i → i < src + 4 → ∃ b, bytes[i]? = some b ∧ Single b) := by
  obtain ⟨b0, h0, f0⟩ := fastEntry hst hbytes (i := src) (by omega)
  obtain ⟨b1, h1, f1⟩ := fastEntry hst hbytes (i := src + 1) (by omega)
  obtain ⟨b2, h2, f2⟩ := fastEntry hst hbytes (i := src + 2) (by omega)
  obtain ⟨b3, h3, f3⟩ := fastEntry hst hbytes (i := src + 3) (by omega)
  refine ⟨_, by simp only [fastOr, h0, h1, h2, h3, f0, f1, f2, f3, Option.bind_eq_bind,
    Option.bind_some, Option.pure_def]; exact rfl, ?_⟩
  intro hzero
  simp only [Nat.or_eq_zero_iff, ite_eq_left_iff, one_ne_zero, imp_false, not_not] at hzero
  intro i hi hlt
  obtain rfl | rfl | rfl | rfl : i = src ∨ i = src + 1 ∨ i = src + 2 ∨ i = src + 3 := by omega
  · exact ⟨b0, h0, hzero.1.1⟩
  · exact ⟨b1, h1, hzero.1.2⟩
  · exact ⟨b2, h2, hzero.2.1⟩
  · exact ⟨b3, h3, hzero.2.2⟩

omit hst in
/-- A word of the text. -/
theorem load32_spec {src : Nat} (hsrc : src + 3 < bytes.length) :
    ∃ b0 b1 b2 b3, bytes[src]? = some b0 ∧ bytes[src + 1]? = some b1 ∧
      bytes[src + 2]? = some b2 ∧ bytes[src + 3]? = some b3 ∧
      (b0 < 256 ∧ b1 < 256 ∧ b2 < 256 ∧ b3 < 256) ∧
      load32 bytes src = some (b0 + 2 ^ 8 * b1 + 2 ^ 16 * b2 + 2 ^ 24 * b3) := by
  obtain ⟨b0, h0, l0⟩ := byteAt hbytes (i := src) (by omega)
  obtain ⟨b1, h1, l1⟩ := byteAt hbytes (i := src + 1) (by omega)
  obtain ⟨b2, h2, l2⟩ := byteAt hbytes (i := src + 2) (by omega)
  obtain ⟨b3, h3, l3⟩ := byteAt hbytes (i := src + 3) (by omega)
  refine ⟨b0, b1, b2, b3, h0, h1, h2, h3, ⟨l0, l1, l2, l3⟩, ?_⟩
  simp only [load32, h0, h1, h2, h3, Option.bind_eq_bind, Option.bind_some, Option.pure_def]

/-- The fast check of a group lets only single bytes pass. -/
theorem fastCheck_spec {src : Nat} (hsrc : src + 7 < bytes.length) :
    ∃ s0123 s4567, load32 bytes src = some s0123 ∧ load32 bytes (src + 4) = some s4567 ∧
      (fastCheck st s0123 s4567 = true →
        ∀ i, src ≤ i → i < src + 8 → ∃ b, bytes[i]? = some b ∧ Single b) := by
  obtain ⟨a0, a1, a2, a3, h0, h1, h2, h3, ⟨l0, l1, l2, l3⟩, hload⟩ :=
    load32_spec hbytes (show src + 3 < bytes.length by omega)
  obtain ⟨b0, b1, b2, b3, h4, h5, h6, h7, ⟨l4, l5, l6, l7⟩, hload'⟩ :=
    load32_spec hbytes (show src + 4 + 3 < bytes.length by omega)
  refine ⟨_, _, hload, hload', fun hcheck => ?_⟩
  simp only [fastCheck, hst.losub, hst.hiadd, beq_iff_eq] at hcheck
  have hbits := bits_of_fastCheck hcheck
  have hfirst := printable_of_word l0 l1 l2 l3 fun i hi => ⟨(hbits i hi).1, (hbits i hi).2.1⟩
  have hsecond := printable_of_word l4 l5 l6 l7 fun i hi =>
    ⟨(hbits i hi).2.2.1, (hbits i hi).2.2.2⟩
  intro i hi hlt
  obtain rfl | rfl | rfl | rfl | rfl | rfl | rfl | rfl : i = src ∨ i = src + 1 ∨ i = src + 2 ∨
      i = src + 3 ∨ i = src + 4 ∨ i = src + 5 ∨ i = src + 6 ∨ i = src + 7 := by omega
  · exact ⟨a0, h0, .inl hfirst.1⟩
  · exact ⟨a1, h1, .inl hfirst.2.1⟩
  · exact ⟨a2, h2, .inl hfirst.2.2.1⟩
  · exact ⟨a3, h3, .inl hfirst.2.2.2⟩
  · exact ⟨b0, h4, .inl hsecond.1⟩
  · exact ⟨b1, h5, .inl hsecond.2.1⟩
  · exact ⟨b2, h6, .inl hsecond.2.2.1⟩
  · exact ⟨b3, h7, .inl hsecond.2.2.2⟩

/-- **A group**: what the loop passes over are single bytes. -/
theorem fastExit_spec {src : Nat} (hsrc : src + 7 < bytes.length) :
    ∃ exit, fastExit st bytes src = some exit ∧
      src ≤ exit.getD (src + 8) ∧ exit.getD (src + 8) ≤ src + 8 ∧
      ∀ i, src ≤ i → i < exit.getD (src + 8) → ∃ b, bytes[i]? = some b ∧ Single b := by
  obtain ⟨s0123, s4567, hload, hload', hcheck⟩ := fastCheck_spec hst hbytes hsrc
  obtain ⟨e, hor, hfirst⟩ := fastOr_spec hst hbytes (show src + 3 < bytes.length by omega)
  obtain ⟨e', hor', hsecond⟩ := fastOr_spec hst hbytes (show src + 4 + 3 < bytes.length by omega)
  simp only [fastExit, hload, hload', hor, hor', Option.bind_eq_bind, Option.bind_some]
  generalize fastCheck st s0123 s4567 = passed at hcheck ⊢
  cases passed with
  | true => exact ⟨none, rfl, Nat.le_add_right src 8, le_refl _, hcheck rfl⟩
  | false =>
      show ∃ exit, (if e ≠ 0 then some (some src)
        else if e' ≠ 0 then some (some (src + 4)) else some none) = some exit ∧ _
      by_cases he : e = 0
      · rw [if_neg (not_not.mpr he)]
        by_cases he' : e' = 0
        · rw [if_neg (not_not.mpr he')]
          refine ⟨none, rfl, Nat.le_add_right src 8, le_refl _, fun i hi hlt => ?_⟩
          by_cases hi' : i < src + 4
          · exact hfirst he i hi hi'
          · exact hsecond he' i (by omega) hlt
        · rw [if_pos he']
          exact ⟨some (src + 4), rfl, Nat.le_add_right src 4, Nat.le_add_right (src + 4) 4,
            hfirst he⟩
      · rw [if_pos he]
        exact ⟨some src, rfl, le_refl src, Nat.le_add_right src 8,
          fun i hi hlt => absurd hlt (Nat.not_lt.mpr hi)⟩

/-- **The loop over groups** stays inside the text and passes over single bytes only. -/
theorem fastScan_spec {src : Nat} (hsrc : src ≤ bytes.length) :
    ∃ src', fastScan st bytes src = some src' ∧ src ≤ src' ∧ src' ≤ bytes.length ∧
      ∀ i, src ≤ i → i < src' → ∃ b, bytes[i]? = some b ∧ Single b := by
  induction hn : bytes.length - src using Nat.strong_induction_on generalizing src with
  | _ n ih =>
      rw [fastScan]
      by_cases hgroup : src + 7 < bytes.length
      · rw [if_pos hgroup]
        obtain ⟨exit, hexit, hle, hle', hall⟩ := fastExit_spec hst hbytes hgroup
        rw [hexit]
        cases exit with
        | some src' => exact ⟨src', rfl, hle, le_trans hle' (by omega), hall⟩
        | none =>
            obtain ⟨src', hscan, hlo, hhi, hrest⟩ :=
              ih _ (by omega) (show src + 8 ≤ bytes.length by omega) rfl
            refine ⟨src', hscan, by omega, hhi, fun i hi hlt => ?_⟩
            by_cases hi' : i < src + 8
            · exact hall i hi hi'
            · exact hrest i (by omega) hlt
      · rw [if_neg hgroup]
        exact ⟨src, rfl, le_refl _, hsrc, fun i hi hlt => by omega⟩

end FastScan

/-! ## The table -/

/-- The state after the first byte of a valid character; zero if it has no other. -/
def firstNext (b : Nat) : Option Nat :=
  if Single b then some 0
  else if b = 0xC2 then some 7
  else if 0xC3 ≤ b ∧ b ≤ 0xDF then some 4
  else if b = 0xE0 then some 5
  else if b = 0xED then some 8
  else if b = 0xEF then some 10
  else if 0xE1 ≤ b ∧ b ≤ 0xEE then some 6
  else if b = 0xF0 then some 13
  else if 0xF1 ≤ b ∧ b ≤ 0xF3 then some 15
  else if b = 0xF4 then some 16
  else none

/-- The state after another byte. -/
def tailNext (s b : Nat) : Option Nat :=
  match s with
  | 4 => if 0x80 ≤ b ∧ b ≤ 0xBF then some 0 else none
  | 5 => if 0xA0 ≤ b ∧ b ≤ 0xBF then some 4 else none
  | 6 => if 0x80 ≤ b ∧ b ≤ 0xBF then some 4 else none
  | 7 => if 0xA0 ≤ b ∧ b ≤ 0xBF then some 0 else none
  | 8 => if 0x80 ≤ b ∧ b ≤ 0xBF then some (if b ≤ 0x9F then 4 else 9) else none
  | 10 =>
      if 0x80 ≤ b ∧ b ≤ 0xBF then some (if b = 0xB7 then 11 else if b = 0xBF then 12 else 4)
      else none
  | 11 => if 0x80 ≤ b ∧ b ≤ 0x8F ∨ 0xB0 ≤ b ∧ b ≤ 0xBF then some 0 else none
  | 12 => if 0x80 ≤ b ∧ b ≤ 0xBD then some 0 else none
  | 13 => if 0x90 ≤ b ∧ b ≤ 0xBF then some (if b % 16 = 15 then 14 else 6) else none
  | 14 => if 0x80 ≤ b ∧ b ≤ 0xBF then some (if b = 0xBF then 12 else 4) else none
  | 15 => if 0x80 ≤ b ∧ b ≤ 0xBF then some (if b % 16 = 15 then 14 else 6) else none
  | 16 => if 0x80 ≤ b ∧ b ≤ 0x8F then some (if b % 16 = 15 then 14 else 6) else none
  | _ => none

/-- An entry in one of the first rows. -/
def FirstEntry (s b e : Nat) : Prop :=
  match firstNext b with
  | some 0 => e = if s = 3 then kExitDoAgain else s + 1
  | some (k + 1) => e = k + 1
  | none => kExitIllegalStructure ≤ e ∧ e ≠ kExitDoAgain

/-- An entry in one of the others. -/
def TailEntry (s b e : Nat) : Prop :=
  match tailNext s b with
  | some s' => e = s'
  | none => kExitIllegalStructure ≤ e ∧ e ≠ kExitDoAgain

instance (s b e : Nat) : Decidable (FirstEntry s b e) :=
  match h : firstNext b with
  | some 0 =>
      decidable_of_iff (e = if s = 3 then kExitDoAgain else s + 1) (by rw [FirstEntry, h])
  | some (k + 1) => decidable_of_iff (e = k + 1) (by rw [FirstEntry, h])
  | none =>
      decidable_of_iff (kExitIllegalStructure ≤ e ∧ e ≠ kExitDoAgain) (by rw [FirstEntry, h])

instance (s b e : Nat) : Decidable (TailEntry s b e) :=
  match h : tailNext s b with
  | some s' => decidable_of_iff (e = s') (by rw [TailEntry, h])
  | none =>
      decidable_of_iff (kExitIllegalStructure ≤ e ∧ e ≠ kExitDoAgain) (by rw [TailEntry, h])

/-! ### The characters that the states accept -/

/-- The bytes lead from the state to the end of a character. -/
def Completes : Nat → List Nat → Prop
  | s, [] => s = 0
  | s, b :: t => ∃ s', tailNext s b = some s' ∧ Completes s' t

theorem completes_zero_iff {t : List Nat} : Completes 0 t ↔ t = [] := by
  cases t with
  | nil => exact iff_of_true rfl rfl
  | cons b t =>
      refine iff_of_false ?_ (List.cons_ne_nil _ _)
      rintro ⟨s', hs', -⟩
      cases hs'

/-- An unfinished character takes one more byte, or is done. -/
theorem completes_iff_cons {s : Nat} (hs : s ≠ 0) {t : List Nat} :
    Completes s t ↔ ∃ b t', t = b :: t' ∧ ∃ s', tailNext s b = some s' ∧ Completes s' t' := by
  cases t with
  | nil =>
      refine iff_of_false hs ?_
      rintro ⟨b, t', h, -⟩
      cases h
  | cons b t =>
      constructor
      · intro h
        exact ⟨b, t, rfl, h⟩
      · rintro ⟨b', t', h, hs'⟩
        obtain ⟨rfl, rfl⟩ := List.cons.inj h
        exact hs'

/-- A state that goes on for a range of bytes. -/
theorem completes_range_iff {s lo hi : Nat} {f : Nat → Nat} (hs : s ≠ 0)
    (hnext : ∀ b, tailNext s b = if lo ≤ b ∧ b ≤ hi then some (f b) else none)
    {t : List Nat} :
    Completes s t ↔ ∃ b t', t = b :: t' ∧ (lo ≤ b ∧ b ≤ hi) ∧ Completes (f b) t' := by
  rw [completes_iff_cons hs]
  refine exists_congr fun b => exists_congr fun t' => and_congr_right fun _ => ?_
  rw [hnext]
  by_cases hb : lo ≤ b ∧ b ≤ hi
  · rw [if_pos hb]
    constructor
    · rintro ⟨s'', hs'', ht'⟩
      obtain rfl := Option.some.inj hs''
      exact ⟨hb, ht'⟩
    · rintro ⟨-, ht'⟩
      exact ⟨_, rfl, ht'⟩
  · rw [if_neg hb]
    refine iff_of_false ?_ fun h => hb h.1
    rintro ⟨s'', hs'', -⟩
    cases hs''

/-! What is left to read in each state. -/

theorem completes_four_iff {t : List Nat} :
    Completes 4 t ↔ ∃ d, t = [d] ∧ (0x80 ≤ d ∧ d ≤ 0xBF) := by
  rw [completes_range_iff (by decide) fun _ => rfl]
  constructor
  · rintro ⟨d, t', rfl, hd, ht⟩
    obtain rfl := completes_zero_iff.mp ht
    exact ⟨d, rfl, hd⟩
  · rintro ⟨d, rfl, hd⟩
    exact ⟨d, [], rfl, hd, rfl⟩

theorem completes_seven_iff {t : List Nat} :
    Completes 7 t ↔ ∃ d, t = [d] ∧ (0xA0 ≤ d ∧ d ≤ 0xBF) := by
  rw [completes_range_iff (by decide) fun _ => rfl]
  constructor
  · rintro ⟨d, t', rfl, hd, ht⟩
    obtain rfl := completes_zero_iff.mp ht
    exact ⟨d, rfl, hd⟩
  · rintro ⟨d, rfl, hd⟩
    exact ⟨d, [], rfl, hd, rfl⟩

theorem completes_twelve_iff {t : List Nat} :
    Completes 12 t ↔ ∃ d, t = [d] ∧ (0x80 ≤ d ∧ d ≤ 0xBD) := by
  rw [completes_range_iff (by decide) fun _ => rfl]
  constructor
  · rintro ⟨d, t', rfl, hd, ht⟩
    obtain rfl := completes_zero_iff.mp ht
    exact ⟨d, rfl, hd⟩
  · rintro ⟨d, rfl, hd⟩
    exact ⟨d, [], rfl, hd, rfl⟩

theorem completes_nine (t : List Nat) : ¬ Completes 9 t := by
  rw [completes_iff_cons (by decide)]
  rintro ⟨b, t', -, s', hs', -⟩
  cases hs'

theorem completes_eleven_iff {t : List Nat} :
    Completes 11 t ↔ ∃ d, t = [d] ∧ (0x80 ≤ d ∧ d ≤ 0x8F ∨ 0xB0 ≤ d ∧ d ≤ 0xBF) := by
  rw [completes_iff_cons (by decide)]
  constructor
  · rintro ⟨d, t', rfl, s', hs', ht⟩
    rw [tailNext, Option.ite_none_right_eq_some] at hs'
    obtain ⟨hd, hzero⟩ := hs'
    obtain rfl := Option.some.inj hzero
    obtain rfl := completes_zero_iff.mp ht
    exact ⟨d, rfl, hd⟩
  · rintro ⟨d, rfl, hd⟩
    exact ⟨d, [], rfl, 0, if_pos hd, rfl⟩

theorem completes_five_iff {t : List Nat} :
    Completes 5 t ↔ ∃ b d, t = [b, d] ∧ (0xA0 ≤ b ∧ b ≤ 0xBF) ∧ (0x80 ≤ d ∧ d ≤ 0xBF) := by
  rw [completes_range_iff (by decide) fun _ => rfl]
  constructor
  · rintro ⟨b, t', rfl, hb, ht⟩
    obtain ⟨d, rfl, hd⟩ := completes_four_iff.mp ht
    exact ⟨b, d, rfl, hb, hd⟩
  · rintro ⟨b, d, rfl, hb, hd⟩
    exact ⟨b, [d], rfl, hb, completes_four_iff.mpr ⟨d, rfl, hd⟩⟩

theorem completes_six_iff {t : List Nat} :
    Completes 6 t ↔ ∃ b d, t = [b, d] ∧ (0x80 ≤ b ∧ b ≤ 0xBF) ∧ (0x80 ≤ d ∧ d ≤ 0xBF) := by
  rw [completes_range_iff (by decide) fun _ => rfl]
  constructor
  · rintro ⟨b, t', rfl, hb, ht⟩
    obtain ⟨d, rfl, hd⟩ := completes_four_iff.mp ht
    exact ⟨b, d, rfl, hb, hd⟩
  · rintro ⟨b, d, rfl, hb, hd⟩
    exact ⟨b, [d], rfl, hb, completes_four_iff.mpr ⟨d, rfl, hd⟩⟩

theorem completes_eight_iff {t : List Nat} :
    Completes 8 t ↔ ∃ b d, t = [b, d] ∧ (0x80 ≤ b ∧ b ≤ 0x9F) ∧ (0x80 ≤ d ∧ d ≤ 0xBF) := by
  rw [completes_range_iff (by decide) fun _ => rfl]
  constructor
  · rintro ⟨b, t', rfl, hb, ht⟩
    split_ifs at ht with hsurr
    · obtain ⟨d, rfl, hd⟩ := completes_four_iff.mp ht
      exact ⟨b, d, rfl, ⟨hb.1, hsurr⟩, hd⟩
    · exact absurd ht (completes_nine t')
  · rintro ⟨b, d, rfl, hb, hd⟩
    refine ⟨b, [d], rfl, by omega, ?_⟩
    rw [if_pos hb.2]
    exact completes_four_iff.mpr ⟨d, rfl, hd⟩

/-- After `EF`: no noncharacter, neither one of `FDD0` to `FDEF` nor `FFFE` or `FFFF`. -/
theorem completes_ten_iff {t : List Nat} :
    Completes 10 t ↔ ∃ b d, t = [b, d] ∧ (0x80 ≤ b ∧ b ≤ 0xBF) ∧ (0x80 ≤ d ∧ d ≤ 0xBF) ∧
      (b = 0xB7 → d ≤ 0x8F ∨ 0xB0 ≤ d) ∧ (b = 0xBF → d ≤ 0xBD) := by
  rw [completes_range_iff (by decide) fun _ => rfl]
  constructor
  · rintro ⟨b, t', rfl, hb, ht⟩
    split_ifs at ht with harabic hlast
    · obtain ⟨d, rfl, hd⟩ := completes_eleven_iff.mp ht
      exact ⟨b, d, rfl, hb, by omega, by omega, by omega⟩
    · obtain ⟨d, rfl, hd⟩ := completes_twelve_iff.mp ht
      exact ⟨b, d, rfl, hb, by omega, by omega, by omega⟩
    · obtain ⟨d, rfl, hd⟩ := completes_four_iff.mp ht
      exact ⟨b, d, rfl, hb, hd, by omega, by omega⟩
  · rintro ⟨b, d, rfl, hb, hd, harabic, hlast⟩
    refine ⟨b, [d], rfl, hb, ?_⟩
    split_ifs with h h'
    · exact completes_eleven_iff.mpr ⟨d, rfl, by omega⟩
    · exact completes_twelve_iff.mpr ⟨d, rfl, by omega⟩
    · exact completes_four_iff.mpr ⟨d, rfl, hd⟩

theorem completes_fourteen_iff {t : List Nat} :
    Completes 14 t ↔ ∃ b d, t = [b, d] ∧ (0x80 ≤ b ∧ b ≤ 0xBF) ∧ (0x80 ≤ d ∧ d ≤ 0xBF) ∧
      (b = 0xBF → d ≤ 0xBD) := by
  rw [completes_range_iff (by decide) fun _ => rfl]
  constructor
  · rintro ⟨b, t', rfl, hb, ht⟩
    split_ifs at ht with hlast
    · obtain ⟨d, rfl, hd⟩ := completes_twelve_iff.mp ht
      exact ⟨b, d, rfl, hb, by omega, by omega⟩
    · obtain ⟨d, rfl, hd⟩ := completes_four_iff.mp ht
      exact ⟨b, d, rfl, hb, hd, by omega⟩
  · rintro ⟨b, d, rfl, hb, hd, hlast⟩
    refine ⟨b, [d], rfl, hb, ?_⟩
    split_ifs with h
    · exact completes_twelve_iff.mpr ⟨d, rfl, by omega⟩
    · exact completes_four_iff.mpr ⟨d, rfl, hd⟩

/-- The states after a first byte of four. -/
theorem completes_three_iff {s lo hi : Nat} (hs : s ≠ 0)
    (hnext : ∀ a, tailNext s a
      = if lo ≤ a ∧ a ≤ hi then some (if a % 16 = 15 then 14 else 6) else none)
    {t : List Nat} :
    Completes s t ↔ ∃ a b d, t = [a, b, d] ∧ (lo ≤ a ∧ a ≤ hi) ∧ (0x80 ≤ b ∧ b ≤ 0xBF) ∧
      (0x80 ≤ d ∧ d ≤ 0xBF) ∧ (a % 16 = 15 → b = 0xBF → d ≤ 0xBD) := by
  rw [completes_range_iff hs hnext]
  constructor
  · rintro ⟨a, t', rfl, ha, ht⟩
    split_ifs at ht with hlast
    · obtain ⟨b, d, rfl, hb, hd, h⟩ := completes_fourteen_iff.mp ht
      exact ⟨a, b, d, rfl, ha, hb, hd, fun _ => h⟩
    · obtain ⟨b, d, rfl, hb, hd⟩ := completes_six_iff.mp ht
      exact ⟨a, b, d, rfl, ha, hb, hd, fun h => absurd h hlast⟩
  · rintro ⟨a, b, d, rfl, ha, hb, hd, h⟩
    refine ⟨a, [b, d], rfl, ha, ?_⟩
    split_ifs with hlast
    · exact completes_fourteen_iff.mpr ⟨b, d, rfl, hb, hd, h hlast⟩
    · exact completes_six_iff.mpr ⟨b, d, rfl, hb, hd⟩

/-- **The states accept the encodings of the valid characters**, and nothing else. -/
theorem completes_first_iff {a : Nat} {t : List Nat} :
    (∃ k, firstNext a = some k ∧ Completes k t) ↔
      ∃ c, InterchangeValid c ∧ encode c = a :: t := by
  constructor
  · rintro ⟨k, hk, ht⟩
    rw [firstNext] at hk
    split_ifs at hk with h0 h1 h2 h3 h4 h5 h6 h7 h8 h9
    all_goals obtain rfl := Option.some.inj hk
    · obtain rfl := completes_zero_iff.mp ht
      have hle : a ≤ 0x7F := by
        rw [Single] at h0
        omega
      obtain ⟨c, hc⟩ := exists_char (v := a) (by omega)
      exact ⟨c, ⟨.inl (hc ▸ h0), by omega, by omega⟩, encode_one_iff.mpr ⟨hc, hle⟩⟩
    · obtain ⟨b, rfl, hb⟩ := completes_seven_iff.mp ht
      obtain ⟨c, hc⟩ := exists_encode_two (a := a) (b := b) (by omega) (by omega)
      obtain ⟨-, -, hval⟩ := encode_two_iff.mp hc
      exact ⟨c, ⟨.inr (by omega), by omega, by omega⟩, hc⟩
    · obtain ⟨b, rfl, hb⟩ := completes_four_iff.mp ht
      obtain ⟨c, hc⟩ := exists_encode_two (a := a) (b := b) (by omega) (by omega)
      obtain ⟨-, -, hval⟩ := encode_two_iff.mp hc
      exact ⟨c, ⟨.inr (by omega), by omega, by omega⟩, hc⟩
    · obtain ⟨b, d, rfl, hb, hd⟩ := completes_five_iff.mp ht
      obtain ⟨c, hc⟩ := exists_encode_three (a := a) (b := b) (d := d) (by omega) (by omega)
        (by omega) (by omega) (by omega)
      obtain ⟨-, -, -, -, hval⟩ := encode_three_iff.mp hc
      exact ⟨c, ⟨.inr (by omega), by omega, by omega⟩, hc⟩
    · obtain ⟨b, d, rfl, hb, hd⟩ := completes_eight_iff.mp ht
      obtain ⟨c, hc⟩ := exists_encode_three (a := a) (b := b) (d := d) (by omega) (by omega)
        (by omega) (by omega) (by omega)
      obtain ⟨-, -, -, -, hval⟩ := encode_three_iff.mp hc
      exact ⟨c, ⟨.inr (by omega), by omega, by omega⟩, hc⟩
    · obtain ⟨b, d, rfl, hb, hd, harabic, hlast⟩ := completes_ten_iff.mp ht
      obtain ⟨c, hc⟩ := exists_encode_three (a := a) (b := b) (d := d) (by omega) (by omega)
        (by omega) (by omega) (by omega)
      obtain ⟨-, -, -, -, hval⟩ := encode_three_iff.mp hc
      exact ⟨c, ⟨.inr (by omega), by omega, by omega⟩, hc⟩
    · obtain ⟨b, d, rfl, hb, hd⟩ := completes_six_iff.mp ht
      obtain ⟨c, hc⟩ := exists_encode_three (a := a) (b := b) (d := d) (by omega) (by omega)
        (by omega) (by omega) (by omega)
      obtain ⟨-, -, -, -, hval⟩ := encode_three_iff.mp hc
      exact ⟨c, ⟨.inr (by omega), by omega, by omega⟩, hc⟩
    all_goals
      obtain ⟨b, d, e, rfl, hb, hd, he, hlast⟩ :=
        (completes_three_iff (by decide) fun _ => rfl).mp ht
      obtain ⟨c, hc⟩ := exists_encode_four (a := a) (b := b) (d := d) (e := e) (by omega)
        (by omega) (by omega) (by omega) (by omega) (by omega)
      obtain ⟨-, -, -, -, -, hval⟩ := encode_four_iff.mp hc
      exact ⟨c, ⟨.inr (by omega), by omega, by omega⟩, hc⟩
  · rintro ⟨c, ⟨hcontrol, harabic, hlast⟩, hencode⟩
    have hmax := toNat_lt c
    have hsize : t.length ≤ 3 := by
      obtain ⟨a', t', hc, hsize, -⟩ := encode_cons c
      obtain ⟨rfl, rfl⟩ := List.cons.inj (hencode.symm.trans hc)
      rw [size] at hsize
      split_ifs at hsize <;> omega
    have hnot : 0x80 ≤ a → ¬ Single a := by
      rw [Single]
      omega
    rcases t with _ | ⟨b, _ | ⟨d, _ | ⟨e, _ | ⟨x, t⟩⟩⟩⟩
    · obtain ⟨rfl, hle⟩ := encode_one_iff.mp hencode
      exact ⟨0, if_pos (hcontrol.resolve_right (by omega)), rfl⟩
    · obtain ⟨ha, hb, hval⟩ := encode_two_iff.mp hencode
      have hlow : 0xA0 ≤ c.toNat := hcontrol.resolve_left (by rw [Single]; omega)
      rw [firstNext, if_neg (hnot (by omega))]
      by_cases h : a = 0xC2
      · exact ⟨7, if_pos h, completes_seven_iff.mpr ⟨b, rfl, by omega⟩⟩
      · rw [if_neg h, if_pos (by omega)]
        exact ⟨4, rfl, completes_four_iff.mpr ⟨b, rfl, hb⟩⟩
    · obtain ⟨ha, hb, hd, hlong, hval⟩ := encode_three_iff.mp hencode
      have hsurr := c.valid
      simp only [UInt32.isValidChar, Nat.isValidChar] at hsurr
      change c.toNat < _ ∨ _ < c.toNat ∧ c.toNat < _ at hsurr
      rw [firstNext, if_neg (hnot (by omega)), if_neg (by omega), if_neg (by omega)]
      by_cases hE0 : a = 0xE0
      · exact ⟨5, if_pos hE0, completes_five_iff.mpr ⟨b, d, rfl, by omega, hd⟩⟩
      · rw [if_neg hE0]
        by_cases hED : a = 0xED
        · exact ⟨8, if_pos hED, completes_eight_iff.mpr ⟨b, d, rfl, by omega, hd⟩⟩
        · rw [if_neg hED]
          by_cases hEF : a = 0xEF
          · exact ⟨10, if_pos hEF, completes_ten_iff.mpr ⟨b, d, rfl, hb, hd, by omega, by omega⟩⟩
          · rw [if_neg hEF, if_pos (by omega)]
            exact ⟨6, rfl, completes_six_iff.mpr ⟨b, d, rfl, hb, hd⟩⟩
    · obtain ⟨ha, hb, hd, he, hlong, hval⟩ := encode_four_iff.mp hencode
      rw [firstNext, if_neg (hnot (by omega)), if_neg (by omega), if_neg (by omega),
        if_neg (by omega), if_neg (by omega), if_neg (by omega), if_neg (by omega)]
      by_cases hF0 : a = 0xF0
      · exact ⟨13, if_pos hF0, (completes_three_iff (by decide) fun _ => rfl).mpr
          ⟨b, d, e, rfl, by omega, hd, he, by omega⟩⟩
      · rw [if_neg hF0]
        by_cases hF : 0xF1 ≤ a ∧ a ≤ 0xF3
        · exact ⟨15, if_pos hF, (completes_three_iff (by decide) fun _ => rfl).mpr
            ⟨b, d, e, rfl, hb, hd, he, by omega⟩⟩
        · rw [if_neg hF, if_pos (by omega)]
          exact ⟨16, rfl, (completes_three_iff (by decide) fun _ => rfl).mpr
            ⟨b, d, e, rfl, by omega, hd, he, by omega⟩⟩
    · simp only [List.length_cons] at hsize
      omega

/-- What a scan relies on: the table of the valid characters, and what `FastAscii` says. -/
structure AcceptInterchange (st : UTF8ScanObj) : Prop extends FastAscii st where
  state0Size : st.state0Size = 1024
  entryShift : st.entryShift = 8
  first : ∀ s < 4, ∀ b < 256,
    ∃ e ∈ st.stateTable[st.state0 + 256 * s + b]?, FirstEntry s b e
  tail : ∀ s, 4 ≤ s → s < 17 → ∀ b < 256,
    ∃ e ∈ st.stateTable[st.state0 + 256 * s + b]?, TailEntry s b e

theorem length_expand (runs : List (Nat × Nat)) :
    (expand runs).length = (runs.map Prod.fst).sum := by
  induction runs with
  | nil => rfl
  | cons run runs ih =>
      rw [expand, List.flatMap_cons, List.length_append, List.length_replicate, List.map_cons,
        List.sum_cons]
      exact congrArg _ ih

/-- An entry of a table whose rows have one length. -/
theorem getElem?_rows (rows : List (List (Nat × Nat))) {k : Nat}
    (hrows : ∀ row ∈ rows, (row.map Prod.fst).sum = k) {s b : Nat} (hs : s < rows.length)
    (hb : b < k) : (rows.flatMap expand)[k * s + b]? = lookup (rows.getD s []) b := by
  induction rows generalizing s with
  | nil => cases hs
  | cons row rows ih =>
      rw [List.forall_mem_cons, ← length_expand] at hrows
      rw [List.flatMap_cons]
      cases s with
      | zero =>
          rw [Nat.mul_zero, Nat.zero_add, List.getElem?_append_left (by omega), getElem?_expand]
          rfl
      | succ s =>
          rw [List.getElem?_append_right (by rw [hrows.1, Nat.mul_succ]; omega), hrows.1,
            show k * (s + 1) + b - k = k * s + b by rw [Nat.mul_succ]; omega]
          exact ih hrows.2 (Nat.lt_of_succ_lt_succ hs)

/-- **The table of the source** is such a table. -/
theorem acceptInterchange_utf8acceptinterchangeObj :
    AcceptInterchange utf8acceptinterchangeObj := by
  have hfast : ∀ b < 256, lookup [(9, 1), (2, 0), (1, 1), (2, 0), (18, 1), (95, 0), (129, 1)] b
      = some (if Single b then 0 else 1) := by
    decide +kernel
  have hrows : ∀ row ∈ utf8acceptinterchangeRows, (row.map Prod.fst).sum = 256 := by
    decide +kernel
  have hfirst : ∀ s < 4, ∀ b < 256,
      ∃ e ∈ lookup (utf8acceptinterchangeRows.getD s []) b, FirstEntry s b e := by
    decide +kernel
  have htail : ∀ s < 17, 4 ≤ s → ∀ b < 256,
      ∃ e ∈ lookup (utf8acceptinterchangeRows.getD s []) b, TailEntry s b e := by
    decide +kernel
  have hentry : ∀ s < 17, ∀ b < 256,
      utf8acceptinterchangeObj.stateTable[utf8acceptinterchangeObj.state0 + 256 * s + b]?
        = lookup (utf8acceptinterchangeRows.getD s []) b := by
    intro s hs b hb
    show (utf8acceptinterchangeRows.flatMap expand)[0 + 256 * s + b]? = _
    rw [Nat.zero_add]
    exact getElem?_rows utf8acceptinterchangeRows hrows hs hb
  exact {
    losub := rfl
    hiadd := rfl
    fastState := fun b hb => (getElem?_expand _ b).trans (hfast b hb)
    state0Size := rfl
    entryShift := rfl
    first := fun s hs b hb => hentry s (by omega) b hb ▸ hfirst s hs b hb
    tail := fun s hs hs' b hb => hentry s hs' b hb ▸ htail s hs' hs b hb }

/-! ## The loop over bytes -/

/-- No valid character stands at the front. -/
def NoChar (bytes : List Nat) : Prop := ∀ c, InterchangeValid c → ¬ encode c <+: bytes

/-- The states that `firstNext` leads to. -/
theorem firstNext_range {b k : Nat} (h : firstNext b = some (k + 1)) :
    4 ≤ k + 1 ∧ k + 1 < 17 ∧ 0xC0 ≤ b := by
  rw [firstNext] at h
  split_ifs at h
  all_goals
    have := Option.some.inj h
    omega

/-- The states that `tailNext` leads to, and the bytes it takes. -/
theorem tailNext_range {s b s' : Nat} (h : tailNext s b = some s') :
    (s' = 0 ∨ 4 ≤ s' ∧ s' < 17) ∧ 0x80 ≤ b ∧ b ≤ 0xBF := by
  unfold tailNext at h
  split at h
  all_goals first
    | cases h
    | rw [Option.ite_none_right_eq_some] at h
      obtain ⟨hb, hs⟩ := h
      have := Option.some.inj hs
      refine ⟨?_, by omega⟩
      first
      | omega
      | split_ifs at this <;> omega

section ByteScan

variable {st : UTF8ScanObj} (hst : AcceptInterchange st) {bytes : List Nat}
  (hbytes : ∀ b ∈ bytes, b < 256)

include hst in
/-- One turn of the loop. -/
theorem byteScan_turn {src s b e e0 : Nat} (hb : bytes[src]? = some b)
    (he : st.stateTable[st.state0 + 256 * s + b]? = some e) :
    byteScan st bytes src (256 * s) e0
      = if kExitIllegalStructure ≤ e then some (src + 1, 256 * s, e)
        else byteScan st bytes (src + 1) (256 * e) e := by
  have hsrc := (List.getElem?_eq_some_iff.mp hb).1
  rw [byteScan, if_pos hsrc, hb, Option.bind_eq_bind, Option.bind_some, he, Option.bind_some,
    hst.entryShift, Nat.shiftLeft_eq, Nat.mul_comm e]
  rfl

include hbytes in
/-- **Backing up** ends at the first byte of the character. -/
theorem backUp_eq {n q : Nat} (hq : q < n) (hlen : n ≤ bytes.length)
    (hlead : ∃ b, bytes[q]? = some b ∧ ¬ (0x80 ≤ b ∧ b ≤ 0xBF))
    (htail : ∀ i, q < i → i < n → ∃ b, bytes[i]? = some b ∧ 0x80 ≤ b ∧ b ≤ 0xBF) :
    backUp bytes n = some q := by
  induction n with
  | zero => cases hq
  | succ n ih =>
      rw [backUp]
      by_cases hn : q = n
      · subst hn
        by_cases hpos : 0 < q
        · obtain ⟨b, hb, hnot⟩ := hlead
          have hlt := hbytes b (List.mem_of_getElem? hb)
          rw [if_pos hpos, hb, Option.bind_eq_bind, Option.bind_some,
            if_neg (mt (isContinuation_iff b hlt).mp hnot)]
          rfl
        · rw [if_neg hpos]
          rfl
      · obtain ⟨b, hb, hcont⟩ := htail n (by omega) (Nat.lt_succ_self n)
        have hlt := hbytes b (List.mem_of_getElem? hb)
        rw [if_pos (by omega), hb, Option.bind_eq_bind, Option.bind_some,
          if_pos ((isContinuation_iff b hlt).mpr hcont)]
        exact ih (by omega) (by omega) fun i hi hi' => htail i hi (by omega)

include hst in
/-- The states in which no character is unfinished. -/
theorem inStateZero_iff (s : Nat) : inStateZero st (256 * s) = true ↔ s < 4 := by
  rw [inStateZero, hst.state0Size, decide_eq_true_eq]
  omega

include hst hbytes

/-- **Inside a character** that starts at `q`: either the loop gets to its end, or it exits
    and goes back to `q`. -/
theorem byteScan_tail {rest : List Nat} {src s e0 q : Nat} (hrest : bytes.drop src = rest)
    (hs : 4 ≤ s) (hs' : s < 17) (he0 : e0 < kExitIllegalStructure) (hq : q < src)
    (hsrc : src ≤ bytes.length) (hlead : ∃ b, bytes[q]? = some b ∧ ¬ (0x80 ≤ b ∧ b ≤ 0xBF))
    (htail : ∀ i, q < i → i < src → ∃ b, bytes[i]? = some b ∧ 0x80 ≤ b ∧ b ≤ 0xBF) :
    (∃ t rest', rest = t ++ rest' ∧ Completes s t ∧
      byteScan st bytes src (256 * s) e0 = byteScan st bytes (src + t.length) (256 * 0) 0) ∨
    ((∀ t, Completes s t → ¬ t <+: rest) ∧
      ∃ outcome e, byteScan st bytes src (256 * s) e0 = some outcome ∧
        leave st bytes outcome = some (q, e) ∧ e ≠ kExitDoAgain) := by
  have hnotZero : ¬ inStateZero st (256 * s) = true := by
    rw [inStateZero_iff hst]
    omega
  induction rest generalizing src s e0 with
  | nil =>
      refine .inr ⟨fun t ht hprefix => ?_, (src, 256 * s, e0), kExitIllegalStructure, ?_, ?_,
        by decide⟩
      · rw [List.prefix_nil.mp hprefix] at ht
        rw [Completes] at ht
        omega
      · rw [byteScan, if_neg (by rw [List.drop_eq_nil_iff] at hrest; omega)]
        rfl
      · rw [leave, if_neg (by omega), if_neg hnotZero,
          backUp_eq hbytes hq hsrc hlead htail]
        rfl
  | cons b rest ih =>
      have hlt : src < bytes.length := by
        rw [← List.drop_eq_nil_iff.not.trans not_le, hrest]
        exact List.cons_ne_nil _ _
      have hb : bytes[src]? = some b := by
        rw [← List.head?_drop, hrest, List.head?_cons]
      have hdrop : bytes.drop (src + 1) = rest := by
        rw [← List.tail_drop, hrest, List.tail_cons]
      obtain ⟨e, he, hentry⟩ := hst.tail s hs hs' b (hbytes b (List.mem_of_getElem? hb))
      rw [byteScan_turn hst hb he]
      rw [TailEntry] at hentry
      cases hnext : tailNext s b with
      | none =>
          rw [hnext] at hentry
          obtain ⟨hexit, hagain⟩ := hentry
          refine .inr ⟨fun t ht hprefix => ?_, (src + 1, 256 * s, e), e, if_pos hexit, ?_,
            hagain⟩
          · cases t with
            | nil =>
                rw [Completes] at ht
                omega
            | cons b' t =>
                obtain ⟨rfl, -⟩ := List.cons_prefix_cons.mp hprefix
                obtain ⟨s', hs', -⟩ := ht
                rw [hnext] at hs'
                cases hs'
          · rw [leave, if_pos hexit, if_neg hnotZero, Nat.add_sub_cancel,
              backUp_eq hbytes hq hsrc hlead htail]
            rfl
      | some s' =>
          rw [hnext] at hentry
          obtain rfl : e = s' := hentry
          obtain ⟨hrange, hcont⟩ := tailNext_range hnext
          rw [if_neg (by simp only [kExitIllegalStructure]; omega)]
          rcases hrange with rfl | hrange
          · exact .inl ⟨[b], rest, rfl, ⟨0, hnext, rfl⟩, rfl⟩
          · have hcases := ih hdrop hrange.1 hrange.2
              (show e < kExitIllegalStructure by simp only [kExitIllegalStructure]; omega)
              (by omega) hlt
              (fun i hi hi' => by
                by_cases hisrc : i = src
                · exact ⟨b, hisrc ▸ hb, hcont⟩
                · exact htail i hi (by omega))
              (by rw [inStateZero_iff hst]; omega)
            rcases hcases with ⟨t, rest', hsplit, ht, hscan⟩ | ⟨hno, hleave⟩
            · refine .inl ⟨b :: t, rest', by rw [hsplit]; rfl, ⟨e, hnext, ht⟩, ?_⟩
              rw [hscan, List.length_cons, Nat.add_assoc, Nat.add_comm 1]
            · refine .inr ⟨fun t ht hprefix => ?_, hleave⟩
              cases t with
              | nil =>
                  rw [Completes] at ht
                  omega
              | cons b' t =>
                  obtain ⟨rfl, hprefix'⟩ := List.cons_prefix_cons.mp hprefix
                  obtain ⟨s'', hs'', ht'⟩ := ht
                  obtain rfl := Option.some.inj (hnext.symm.trans hs'')
                  exact hno t ht' hprefix'

/-- What a part of the scan from `src` has done once it is at `src'`: it has passed over valid
    characters, and stops there unless it is to do so again. -/
structure Passes (bytes : List Nat) (src src' e : Nat) : Prop where
  le : src ≤ src'
  le_length : src' ≤ bytes.length
  chars : ∃ cs : List Char, (∀ c ∈ cs, InterchangeValid c) ∧
    bytes.drop src = cs.flatMap encode ++ bytes.drop src'
  stop : e ≠ kExitDoAgain → NoChar (bytes.drop src')

omit hst hbytes in
theorem Passes.refl {src e : Nat} (hsrc : src ≤ bytes.length)
    (hstop : e ≠ kExitDoAgain → NoChar (bytes.drop src)) : Passes bytes src src e :=
  ⟨le_refl _, hsrc, ⟨[], fun _ hc => absurd hc List.not_mem_nil, rfl⟩, hstop⟩

omit hst hbytes in
/-- A character in front of what a scan passes over. -/
theorem Passes.cons {src src' e : Nat} {c : Char} (hc : InterchangeValid c)
    (hfront : bytes.drop src = encode c ++ bytes.drop (src + (encode c).length))
    (h : Passes bytes (src + (encode c).length) src' e) : Passes bytes src src' e := by
  obtain ⟨cs, hcs, hdrop⟩ := h.chars
  refine ⟨by have := h.le; omega, h.le_length, ⟨c :: cs, ?_, ?_⟩, h.stop⟩
  · exact List.forall_mem_cons.mpr ⟨hc, hcs⟩
  · rw [hfront, hdrop, List.flatMap_cons, List.append_assoc]

omit hst hbytes in
/-- A valid character at the front, as the states see it. -/
theorem completes_of_prefix {c : Char} (hc : InterchangeValid c) {b : Nat} {rest : List Nat}
    (h : encode c <+: b :: rest) :
    ∃ k t, firstNext b = some k ∧ Completes k t ∧ t <+: rest := by
  obtain ⟨a, t, hencode, -⟩ := encode_cons c
  rw [hencode] at h
  obtain ⟨rfl, hprefix⟩ := List.cons_prefix_cons.mp h
  obtain ⟨k, hk, ht⟩ := completes_first_iff.mpr ⟨c, hc, hencode⟩
  exact ⟨k, t, hk, ht, hprefix⟩

/-- How the loop goes on from one of the first states: up to an exit that leaves it at `src'`,
    at least three bytes on if it is to do so again. -/
def GoesTo (st : UTF8ScanObj) (bytes : List Nat) (src s e0 : Nat) : Prop :=
  ∃ outcome src' e, byteScan st bytes src (256 * s) e0 = some outcome ∧
    leave st bytes outcome = some (src', e) ∧ Passes bytes src src' e ∧
    (e = kExitDoAgain → src + 3 ≤ s + src')

/-- **A byte that starts no valid character.** -/
theorem goesTo_of_none {src s b e0 : Nat} (hs : s < 4) (hlt : src < bytes.length)
    (hdrop : bytes.drop src = b :: bytes.drop (src + 1)) (hnext : firstNext b = none) :
    GoesTo st bytes src s e0 := by
  have hb : bytes[src]? = some b := by rw [← List.head?_drop, hdrop, List.head?_cons]
  obtain ⟨e, he, hentry⟩ := hst.first s hs b (hbytes b (List.mem_of_getElem? hb))
  rw [FirstEntry, hnext] at hentry
  obtain ⟨hexit, hagain⟩ := hentry
  refine ⟨(src + 1, 256 * s, e), src, e, ?_, ?_, .refl hlt.le fun _ c hc hprefix => ?_,
    fun h => absurd h hagain⟩
  · rw [byteScan_turn hst hb he, if_pos hexit]
  · rw [leave, if_pos hexit, if_pos ((inStateZero_iff hst s).mpr hs)]
    rfl
  · rw [hdrop] at hprefix
    obtain ⟨k, t, hk, -, -⟩ := completes_of_prefix hc hprefix
    rw [hnext] at hk
    cases hk

/-- **A character of one byte.**  The last of the first states asks to do so again. -/
theorem goesTo_of_single {src s b e0 : Nat} (hs : s < 4) (hlt : src < bytes.length)
    (hdrop : bytes.drop src = b :: bytes.drop (src + 1)) (hnext : firstNext b = some 0)
    (ih : s + 1 < 4 → GoesTo st bytes (src + 1) (s + 1) (s + 1)) : GoesTo st bytes src s e0 := by
  have hb : bytes[src]? = some b := by rw [← List.head?_drop, hdrop, List.head?_cons]
  obtain ⟨e, he, hentry⟩ := hst.first s hs b (hbytes b (List.mem_of_getElem? hb))
  rw [FirstEntry, hnext] at hentry
  rw [GoesTo, byteScan_turn hst hb he]
  by_cases hthree : s = 3
  · obtain rfl : e = kExitDoAgain := hentry.trans (if_pos hthree)
    refine ⟨(src + 1, 256 * s, kExitDoAgain), src, kExitDoAgain, if_pos (by decide), ?_,
      .refl hlt.le fun h => absurd rfl h, fun _ => by omega⟩
    rw [leave, if_pos (by decide), if_pos ((inStateZero_iff hst s).mpr hs)]
    rfl
  · obtain rfl : e = s + 1 := hentry.trans (if_neg hthree)
    obtain ⟨outcome, src', e', hscan, hleave, hpasses, hagain⟩ := ih (by omega)
    have hends : Completes 0 [] := completes_zero_iff.mpr rfl
    obtain ⟨c, hc, hencode⟩ := completes_first_iff.mp ⟨0, hnext, hends⟩
    rw [if_neg (by simp only [kExitIllegalStructure]; omega)]
    refine ⟨outcome, src', e', hscan, hleave, Passes.cons hc ?_ (hencode ▸ hpasses),
      fun h => by have := hagain h; omega⟩
    rw [hencode, hdrop]
    rfl

/-- **A first byte of several.** -/
theorem goesTo_of_first {src s b e0 k : Nat} (hs : s < 4) (hlt : src < bytes.length)
    (hdrop : bytes.drop src = b :: bytes.drop (src + 1)) (hnext : firstNext b = some (k + 1))
    (ih : ∀ src', src < src' → src' ≤ bytes.length → GoesTo st bytes src' 0 0) :
    GoesTo st bytes src s e0 := by
  have hb : bytes[src]? = some b := by rw [← List.head?_drop, hdrop, List.head?_cons]
  obtain ⟨e, he, hentry⟩ := hst.first s hs b (hbytes b (List.mem_of_getElem? hb))
  rw [FirstEntry, hnext] at hentry
  obtain rfl : e = k + 1 := hentry
  obtain ⟨hlo, hhi, hlead⟩ := firstNext_range hnext
  have hgo : k + 1 < kExitIllegalStructure := by
    simp only [kExitIllegalStructure]
    omega
  rw [GoesTo, byteScan_turn hst hb he, if_neg (by omega)]
  rcases byteScan_tail hst hbytes (q := src) rfl hlo hhi hgo (Nat.lt_succ_self src) hlt
    ⟨b, hb, by omega⟩ (fun i hi hi' => by omega) with
    ⟨t, rest', hrest, ht, hscan⟩ | ⟨hno, outcome, e', hscan, hleave, hagain⟩
  · obtain ⟨c, hc, hencode⟩ := completes_first_iff.mp ⟨k + 1, hnext, ht⟩
    have hlen : src + (encode c).length = src + 1 + t.length := by
      rw [hencode, List.length_cons]
      omega
    have hback : bytes.drop (src + 1 + t.length) = rest' := by
      rw [← List.drop_drop, hrest, List.drop_left]
    have hlength : src + 1 + t.length ≤ bytes.length := by
      have := congrArg List.length hrest
      rw [List.length_append, List.length_drop] at this
      omega
    obtain ⟨outcome, src', e', hscan', hleave, hpasses, hagain⟩ :=
      ih (src + 1 + t.length) (by omega) hlength
    refine ⟨outcome, src', e', hscan.trans hscan', hleave,
      Passes.cons hc ?_ (hlen ▸ hpasses), fun h => by have := hagain h; omega⟩
    rw [hlen, hback, hencode, hdrop, hrest]
    rfl
  · refine ⟨outcome, src, e', hscan, hleave, .refl hlt.le fun _ c hc hprefix => ?_,
      fun h => absurd h hagain⟩
    rw [hdrop] at hprefix
    obtain ⟨k', t, hk', ht, hprefix'⟩ := completes_of_prefix hc hprefix
    obtain rfl := Option.some.inj (hnext.symm.trans hk')
    exact hno t ht hprefix'

/-- **The loop over bytes**, from one of the first states up to where its exit leaves it. -/
theorem byteScan_spec {src s e0 : Nat} (hsrc : src ≤ bytes.length) (hs : s < 4)
    (he0 : e0 < kExitIllegalStructure) : GoesTo st bytes src s e0 := by
  induction hn : bytes.length - src using Nat.strong_induction_on generalizing src s e0 with
  | _ n ih =>
      rcases Nat.eq_or_lt_of_le hsrc with hend | hlt
      · refine ⟨(src, 256 * s, e0), src, kExitOK, ?_, ?_, .refl hsrc fun _ c _ hprefix => ?_,
          fun h => by cases h⟩
        · rw [byteScan, if_neg (by omega)]
          rfl
        · rw [leave, if_neg (by omega), if_pos ((inStateZero_iff hst s).mpr hs)]
          rfl
        · rw [List.drop_eq_nil_of_le hend.ge, List.prefix_nil] at hprefix
          exact encode_ne_nil c hprefix
      · have hdrop : bytes.drop src = bytes[src] :: bytes.drop (src + 1) :=
          List.drop_eq_getElem_cons hlt
        cases hnext : firstNext bytes[src] with
        | none => exact goesTo_of_none hst hbytes hs hlt hdrop hnext
        | some k =>
            cases k with
            | zero =>
                refine goesTo_of_single hst hbytes hs hlt hdrop hnext fun hs' => ?_
                refine ih _ (by omega) hlt hs' ?_ rfl
                simp only [kExitIllegalStructure]
                omega
            | succ k =>
                refine goesTo_of_first hst hbytes hs hlt hdrop hnext fun src' hlo hhi => ?_
                exact ih _ (by omega) hhi (by decide) (by decide) rfl

omit hst hbytes in
/-- The fast loop passes over characters too. -/
theorem Passes.append_single {src src1 src' e : Nat} (hle : src ≤ src1)
    (hsingle : ∀ i, src ≤ i → i < src1 → ∃ b, bytes[i]? = some b ∧ Single b)
    (h : Passes bytes src1 src' e) : Passes bytes src src' e := by
  induction hn : src1 - src generalizing src with
  | zero =>
      obtain rfl : src = src1 := by omega
      exact h
  | succ n ih =>
      obtain ⟨b, hb, hb'⟩ := hsingle src (le_refl _) (by omega)
      have hnext : firstNext b = some 0 := if_pos hb'
      have hends : Completes 0 [] := completes_zero_iff.mpr rfl
      obtain ⟨c, hc, hencode⟩ := completes_first_iff.mp ⟨0, hnext, hends⟩
      have hrest : Passes bytes (src + 1) src' e :=
        ih (by omega) (fun i hi hlt => hsingle i (by omega) hlt) (by omega)
      refine Passes.cons hc ?_ (hencode ▸ hrest)
      obtain ⟨hlt, rfl⟩ := List.getElem?_eq_some_iff.mp hb
      rw [hencode]
      exact List.drop_eq_getElem_cons hlt

omit hst hbytes in
/-- One part of the scan after another. -/
theorem Passes.trans {src src' src'' e : Nat}
    (h : Passes bytes src src' kExitDoAgain) (h' : Passes bytes src' src'' e) :
    Passes bytes src src'' e := by
  obtain ⟨cs, hcs, hdrop⟩ := h.chars
  obtain ⟨cs', hcs', hdrop'⟩ := h'.chars
  refine ⟨le_trans h.le h'.le, h'.le_length, ⟨cs ++ cs', ?_, ?_⟩, h'.stop⟩
  · intro c hc
    exact (List.mem_append.mp hc).elim (hcs c) (hcs' c)
  · rw [hdrop, hdrop', List.flatMap_append, List.append_assoc]

/-- **All rounds**: each goes on where the last one stopped, and there are no more than
    bytes. -/
theorem doAgain_spec {jumps src : Nat} (hsrc : src ≤ bytes.length)
    (hjumps : bytes.length < src + jumps) :
    ∃ src' e, doAgain st bytes jumps src = some (src', e) ∧ e ≠ kExitDoAgain ∧
      Passes bytes src src' e := by
  induction jumps generalizing src with
  | zero => omega
  | succ jumps ih =>
      obtain ⟨src1, hfast, hle, hle', hsingle⟩ := fastScan_spec hst.toFastAscii hbytes hsrc
      obtain ⟨outcome, src2, e, hscan, hleave, hpasses, hagain⟩ :=
        byteScan_spec hst hbytes hle' (show 0 < 4 by decide)
          (show 0 < kExitIllegalStructure by decide)
      rw [Nat.mul_zero] at hscan
      have hround := hpasses.append_single hle hsingle
      simp only [doAgain, hfast, hscan, hleave, Option.bind_eq_bind, Option.bind_some]
      by_cases he : e = kExitDoAgain
      · subst he
        have hmore := hagain rfl
        obtain ⟨src', e, hrest, hne, hpasses'⟩ := ih hpasses.le_length (by omega)
        exact ⟨src', e, (if_pos rfl).trans hrest, hne, hround.trans hpasses'⟩
      · exact ⟨src2, e, if_neg he, he, hround⟩

/-- **`UTF8GenericScan`** with such a table. -/
theorem genericScan_spec {jumps : Nat} (hjumps : bytes.length < jumps) :
    ∃ n e, genericScan st bytes jumps = some (n, e) ∧ e ≠ kExitDoAgain ∧ Passes bytes 0 n e := by
  rw [genericScan]
  by_cases hempty : bytes.length = 0
  · rw [if_pos hempty]
    refine ⟨0, kExitOK, rfl, by decide, .refl (Nat.zero_le _) fun _ c _ hprefix => ?_⟩
    rw [List.drop_zero, List.length_eq_zero_iff.mp hempty, List.prefix_nil] at hprefix
    exact encode_ne_nil c hprefix
  · rw [if_neg hempty]
    exact doAgain_spec hst hbytes (Nat.zero_le _) (by omega)

/-! ## The longest valid prefix -/

/-- Nothing valid goes further than the scan. -/
theorem genericScan_longest {jumps : Nat} (hjumps : bytes.length < jumps) :
    ∃ n e, genericScan st bytes jumps = some (n, e) ∧
      IsGreatest {m | m ≤ bytes.length ∧ Interchange (bytes.take m)} n := by
  obtain ⟨n, e, hscan, hne, hpasses⟩ := genericScan_spec hst hbytes hjumps
  obtain ⟨cs, hcs, hsplit⟩ := hpasses.chars
  have htake : bytes.take n = cs.flatMap encode := by
    rw [List.drop_zero] at hsplit
    exact List.append_cancel_right ((List.take_append_drop n bytes).trans hsplit)
  refine ⟨n, e, hscan, ⟨hpasses.le_length, cs, hcs, htake⟩, ?_⟩
  rintro m ⟨hm, hvalid⟩
  by_contra hlt
  -- a longer one would have a valid character where the scan has stopped
  have hlonger : bytes.take m = cs.flatMap encode ++ (bytes.drop n).take (m - n) := by
    rw [← htake, ← List.take_add, Nat.add_sub_cancel' (by omega)]
  rw [hlonger] at hvalid
  obtain ⟨cs', hcs', hrest⟩ := (Encodes.split hvalid ⟨cs, rfl⟩).2
  cases cs' with
  | nil =>
      have hlength := congrArg List.length hrest
      rw [List.length_take, List.length_drop, List.flatMap_nil, List.length_nil] at hlength
      omega
  | cons c cs' =>
      refine hpasses.stop hne c (List.forall_mem_cons.mp hcs').1 ?_
      refine List.IsPrefix.trans ?_ (List.take_prefix (m - n) (bytes.drop n))
      rw [hrest, List.flatMap_cons]
      exact List.prefix_append _ _

end ByteScan

/-- **`SpanInterchangeValid`** gives the length of the longest prefix that is
    interchange-valid UTF-8. -/
theorem spanInterchangeValid_isGreatest {bytes : List Nat} (hbytes : ∀ b ∈ bytes, b < 256)
    {jumps : Nat} (hjumps : bytes.length < jumps) :
    ∃ n, spanInterchangeValid bytes jumps = some n ∧
      IsGreatest {m | m ≤ bytes.length ∧ Interchange (bytes.take m)} n := by
  obtain ⟨n, e, hscan, hlongest⟩ :=
    genericScan_longest acceptInterchange_utf8acceptinterchangeObj hbytes hjumps
  exact ⟨n, by rw [spanInterchangeValid, hscan]; rfl, hlongest⟩

/-- A letter, an accented one, and a control. -/
theorem spanInterchangeValid_isGreatest_sample :
    ∃ n, spanInterchangeValid [0x41, 0xC3, 0xA9, 0x07, 0x41] 6 = some n ∧
      IsGreatest {m | m ≤ 5 ∧ Interchange ([0x41, 0xC3, 0xA9, 0x07, 0x41].take m)} n :=
  spanInterchangeValid_isGreatest (by decide) (by decide)

end TgnewsUtf8StateTable
