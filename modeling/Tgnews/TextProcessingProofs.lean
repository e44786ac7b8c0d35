import Tgnews.Utf8Proofs
import Mathlib.Data.List.Basic

/-! # Squeezing text in place (`text_processing.cc`)

    Before a text is classified, chunks of it that are mostly spaces or that repeat what came
    before are taken out, in the buffer itself: what stays is moved to the front, while the
    rest is still read behind it.  The cuts go to a space near by, or else to the start of a
    character; behind the text stands a zero byte.  The route:

    * `countPredictedBytes_spec` — the predictor reads whole characters and stays in its
      table;
    * `backscan_spec` and `forwardscan_spec` — where the cuts go;
    * `Squeezed` — what holds between the chunks: text at the front, and the rest untouched;
    * **`cheapSqueezeInplace_spec`** — no access misses the buffer, and what stands at the
      front in the end is valid text, taken from the input in order. -/

namespace TgnewsTextProcessing

open Utf8

/-! ## The code -/

def kMaxSpaceScan : Nat := 32
def kPredictionTableSize : Nat := 4096
def kChunksizeDefault : Nat := 48
def kSpacesThreshPercent : Nat := 30
def kPredictThreshPercent : Nat := 40

/-- `CountSpaces4`, for a number of groups of four. -/
def countSpaces4 (buf : List Nat) : Nat → Nat → Option Nat
  | 0, _ => some 0
  | groups + 1, src => do
      let b0 ← buf[src]?
      let b1 ← buf[src + 1]?
      let b2 ← buf[src + 2]?
      let b3 ← buf[src + 3]?
      let rest ← countSpaces4 buf groups (src + 4)
      return [b0, b1, b2, b3].count 0x20 + rest

/-- One character and its length, as the predictor takes it. -/
def pickChar (buf : List Nat) (src : Nat) : Option (Nat × Nat) := do
  let c ← buf[src]?
  if c < 0xC0 then return (c, 1)
  else if c &&& 0xE0 = 0xC0 then return (c <<< 8 ||| (← buf[src + 1]?), 2)
  else if c &&& 0xF0 = 0xE0 then
    return (c <<< 16 ||| (← buf[src + 1]?) <<< 8 ||| (← buf[src + 2]?), 3)
  else
    return (c <<< 24 ||| (← buf[src + 1]?) <<< 16 ||| (← buf[src + 2]?) <<< 8 |||
      (← buf[src + 3]?), 4)

/-- `CountPredictedBytes`, with the hash and the table it leaves. -/
def countPredictedBytes (buf : List Nat) (srclimit src hash : Nat) (tbl : List Nat)
    (pCount : Nat) : Option (Nat × Nat × List Nat) :=
  if src < srclimit then do
    match ← pickChar buf src with
    | (_, 0) => none
    | (c, incr + 1) =>
        let p ← tbl[hash]?
        countPredictedBytes buf srclimit (src + (incr + 1)) ((hash <<< 4 ^^^ c) &&& 0xFFF)
          (tbl.set hash c) (if c = p then pCount + (incr + 1) else pCount)
  else return (pCount, hash, tbl)
termination_by srclimit - src

/-- The loops `while (n < limit)` of the scans, from `n` on: the first `n` that passes. -/
def findFrom (test : Nat → Option Bool) : Nat → Nat → Option (Option Nat)
  | 0, _ => some none
  | count + 1, n => do
      if ← test n then return some n
      findFrom test count (n + 1)

/-- `src[-n]`. -/
def back (buf : List Nat) (src n : Nat) : Option Nat := if n ≤ src then buf[src - n]? else none

/-- `BackscanToSpace`. -/
def backscanToSpace (buf : List Nat) (src limit : Nat) : Option Nat := do
  let limit := min limit kMaxSpaceScan
  match ← findFrom (fun n => (back buf src (n + 1)).map (· == 0x20)) limit 0 with
  | some n => return n
  | none =>
      return (← findFrom (fun n => (back buf src n).map (!isContinuation ·)) limit 0).getD 0

/-- `ForwardscanToSpace`. -/
def forwardscanToSpace (buf : List Nat) (src limit : Nat) : Option Nat := do
  let limit := min limit kMaxSpaceScan
  match ← findFrom (fun n => (buf[src + n]?).map (· == 0x20)) limit 0 with
  | some n => return n + 1
  | none =>
      return (← findFrom (fun n => (buf[src + n]?).map (!isContinuation ·)) limit 0).getD 0

/-- `while ((src[len] & 0xc0) == 0x80) ++len`. -/
def charBoundary (buf : List Nat) (src len : Nat) : Option Nat :=
  if src + len < buf.length then do
    if isContinuation (← buf[src + len]?) then charBoundary buf src (len + 1) else return len
  else none
termination_by buf.length - (src + len)

/-- An assignment to a byte of the buffer. -/
def write (buf : List Nat) (dst b : Nat) : Option (List Nat) :=
  if dst < buf.length then some (buf.set dst b) else none

/-- `memmove` inside the buffer. -/
def memmove (buf : List Nat) (dst src len : Nat) : Option (List Nat) :=
  if dst + len ≤ buf.length ∧ src + len ≤ buf.length then
    some (buf.take dst ++ (buf.drop src).take len ++ buf.drop (dst + len))
  else none

/-- What `CheapSqueezeInplace` has at the head of its loop. -/
structure State where
  buf : List Nat
  src : Nat
  dst : Nat
  skipping : Bool
  hash : Nat
  predictTbl : List Nat

/-- From keeping to skipping, at a space; a leading space is forced. -/
def startSkipping (s : State) : Option State := do
  let n ← backscanToSpace s.buf s.dst s.dst
  let dst := s.dst - n
  if dst = 0 then return { s with buf := ← write s.buf dst 0x20, dst := dst + 1, skipping := true }
  else return { s with dst := dst, skipping := true }

/-- From skipping to keeping, at a space: how many bytes are left out. -/
def stopSkipping (s : State) (len : Nat) : Option Nat :=
  if s.skipping then forwardscanToSpace s.buf s.src len else some 0

/-- The chunk of `len` bytes is kept. -/
def keep (s : State) (len : Nat) : Option State := do
  let n ← stopSkipping s len
  let src := s.src + n
  let len := len - n
  if 0 < len then
    return { s with
      buf := ← memmove s.buf s.dst src len, src := src + len, dst := s.dst + len,
      skipping := false }
  else return { s with src := src + len, skipping := false }

/-- One turn of the loop. -/
def turn (srcLen chunksize : Nat) (s : State) : Option State := do
  let len ← charBoundary s.buf s.src (min chunksize (srcLen - s.src))
  let spaceN ← countSpaces4 s.buf (len / 4) s.src
  let (predbN, hash, tbl) ←
    countPredictedBytes s.buf (s.src + len) s.src s.hash s.predictTbl 0
  let s := { s with hash := hash, predictTbl := tbl }
  if chunksize * kSpacesThreshPercent / 100 ≤ spaceN ∨
      chunksize * kPredictThreshPercent / 100 ≤ predbN then do
    let s ← if s.skipping then some s else startSkipping s
    return { s with src := s.src + len }
  else keep s len

/-- The loop, for a number of turns. -/
def run (srcLen chunksize : Nat) : Nat → State → Option State
  | 0, _ => none
  | turns + 1, s =>
      if s.src < srcLen then do run srcLen chunksize turns (← turn srcLen chunksize s)
      else return s

/-- The spaces and the zero behind what is left, as far as they fit. -/
def pad (srcLen : Nat) (s : State) : Option (List Nat) := do
  if s.dst + 3 < srcLen then
    let buf ← write s.buf s.dst 0x20
    let buf ← write buf (s.dst + 1) 0x20
    let buf ← write buf (s.dst + 2) 0x20
    write buf (s.dst + 3) 0
  else if s.dst < srcLen then write s.buf s.dst 0x20
  else return s.buf

/-- `CheapSqueezeInplace`: the new length and the buffer. -/
def cheapSqueezeInplace (isrc : List Nat) (srcLen ichunksize turns : Nat) :
    Option (Nat × List Nat) := do
  let chunksize := if ichunksize = 0 then kChunksizeDefault else ichunksize
  let s ← run srcLen chunksize turns
    ⟨isrc, 0, 0, false, 0, List.replicate kPredictionTableSize 0⟩
  return (s.dst, ← pad srcLen s)

/-! ## The scans -/

/-- A search that can look everywhere finds a place that passes, or none. -/
theorem findFrom_spec (test : Nat → Option Bool) (count n : Nat)
    (htest : ∀ i, n ≤ i → i < n + count → ∃ b, test i = some b) :
    ∃ r, findFrom test count n = some r ∧
      ∀ i, r = some i → i < n + count ∧ test i = some true := by
  induction count generalizing n with
  | zero => exact ⟨none, rfl, fun i h => by cases h⟩
  | succ count ih =>
      obtain ⟨b, hb⟩ := htest n (le_refl _) (by omega)
      rw [findFrom, hb, Option.bind_eq_bind, Option.bind_some]
      cases b with
      | true =>
          refine ⟨some n, rfl, fun i hi => ?_⟩
          obtain rfl := Option.some.inj hi
          exact ⟨by omega, hb⟩
      | false =>
          obtain ⟨r, hr, hspec⟩ := ih (n + 1) fun i hi hlt => htest i (by omega) (by omega)
          refine ⟨r, hr, fun i hi => ?_⟩
          obtain ⟨hlt, htrue⟩ := hspec i hi
          exact ⟨by omega, htrue⟩

/-- A byte that is not of the form `10xxxxxx` is no continuation byte. -/
theorem not_continuation {b : Nat} (h : isContinuation b = false) :
    ¬ (0x80 ≤ b ∧ b ≤ 0xBF) := by
  intro hb
  rw [(isContinuation_iff b (by omega)).mpr hb] at h
  cases h

theorem getElem?_of_lt {buf : List Nat} {i : Nat} (hi : i < buf.length) : ∃ b, buf[i]? = some b :=
  ⟨buf[i], List.getElem?_eq_getElem hi⟩

/-- **Back to a space**, or to the start of a character: what stays in front is valid, and
    there is something unless there was nothing. -/
theorem backscan_spec {buf : List Nat} {dst : Nat} (hdst : dst < buf.length)
    (hfront : Valid (buf.take dst)) :
    ∃ n, backscanToSpace buf dst dst = some n ∧ (n < dst ∨ n = 0) ∧
      Valid (buf.take (dst - n)) := by
  have hback : ∀ n, n ≤ dst → ∃ b, back buf dst n = some b := by
    intro n hn
    rw [back, if_pos hn]
    exact getElem?_of_lt (by omega)
  have htake : ∀ n b, n ≤ dst → 0 < n → back buf dst n = some b →
      (buf.take dst)[dst - n]? = some b := by
    intro n b hn hpos hb
    rw [back, if_pos hn] at hb
    rw [List.getElem?_take_of_lt (by omega), hb]
  obtain ⟨r, hr, hspace⟩ := findFrom_spec (fun n => (back buf dst (n + 1)).map (· == 0x20))
    (min dst kMaxSpaceScan) 0 (fun i _ hi => by
      obtain ⟨b, hb⟩ := hback (i + 1) (by omega)
      exact ⟨_, by rw [hb]; rfl⟩)
  obtain ⟨r', hr', hstart⟩ := findFrom_spec (fun n => (back buf dst n).map (!isContinuation ·))
    (min dst kMaxSpaceScan) 0 (fun i _ hi => by
      obtain ⟨b, hb⟩ := hback i (by omega)
      exact ⟨_, by rw [hb]; rfl⟩)
  simp only [backscanToSpace, hr, hr', Option.bind_eq_bind, Option.bind_some]
  cases r with
  | some n =>
      obtain ⟨hn, htrue⟩ := hspace n rfl
      obtain ⟨b, hb⟩ := hback (n + 1) (by omega)
      rw [hb, Option.map_some, Option.some_inj, beq_iff_eq] at htrue
      have hb' := htake (n + 1) b (by omega) (by omega) hb
      refine ⟨n, rfl, .inl (by omega), ?_⟩
      have hcut := hfront.take_succ hb' (by omega)
      rwa [List.take_take, show min (dst - (n + 1) + 1) dst = dst - n by omega] at hcut
  | none =>
      cases r' with
      | none => exact ⟨0, rfl, .inr rfl, hfront⟩
      | some n =>
          obtain ⟨hn, htrue⟩ := hstart n rfl
          refine ⟨n, rfl, .inl (by omega), ?_⟩
          obtain ⟨b, hb⟩ := hback n (by omega)
          rw [hb, Option.map_some, Option.some_inj, Bool.not_eq_true'] at htrue
          cases n with
          | zero => exact hfront
          | succ n =>
              have hb' := htake (n + 1) b (by omega) (by omega) hb
              have hcut := hfront.take (i := dst - (n + 1)) fun b' h => by
                obtain rfl := Option.some.inj (hb'.symm.trans h)
                exact not_continuation htrue
              rwa [List.take_take, Nat.min_eq_left (by omega)] at hcut

/-- **On to a space**, or to the start of a character: the chunk is cut between characters. -/
theorem forwardscan_spec {buf : List Nat} {src len : Nat} (hlen : src + len ≤ buf.length)
    (hchunk : Valid ((buf.drop src).take len)) :
    ∃ n, forwardscanToSpace buf src len = some n ∧ n ≤ len ∧
      Valid (((buf.drop src).take len).take n) := by
  have hread : ∀ n, n < len → ∃ b, buf[src + n]? = some b := fun n hn =>
    getElem?_of_lt (by omega)
  have htake : ∀ n b, n < len → buf[src + n]? = some b →
      ((buf.drop src).take len)[n]? = some b := by
    intro n b hn hb
    rw [List.getElem?_take_of_lt hn, List.getElem?_drop, hb]
  obtain ⟨r, hr, hspace⟩ := findFrom_spec (fun n => (buf[src + n]?).map (· == 0x20))
    (min len kMaxSpaceScan) 0 (fun i _ hi => by
      obtain ⟨b, hb⟩ := hread i (by omega)
      exact ⟨_, by rw [hb]; rfl⟩)
  obtain ⟨r', hr', hstart⟩ := findFrom_spec (fun n => (buf[src + n]?).map (!isContinuation ·))
    (min len kMaxSpaceScan) 0 (fun i _ hi => by
      obtain ⟨b, hb⟩ := hread i (by omega)
      exact ⟨_, by rw [hb]; rfl⟩)
  simp only [forwardscanToSpace, hr, hr', Option.bind_eq_bind, Option.bind_some]
  cases r with
  | some n =>
      obtain ⟨hn, htrue⟩ := hspace n rfl
      obtain ⟨b, hb⟩ := hread n (by omega)
      rw [hb, Option.map_some, Option.some_inj, beq_iff_eq] at htrue
      exact ⟨n + 1, rfl, by omega, hchunk.take_succ (htake n b (by omega) hb) (by omega)⟩
  | none =>
      cases r' with
      | none => exact ⟨0, rfl, Nat.zero_le _, valid_nil⟩
      | some n =>
          obtain ⟨hn, htrue⟩ := hstart n rfl
          obtain ⟨b, hb⟩ := hread n (by omega)
          rw [hb, Option.map_some, Option.some_inj, Bool.not_eq_true'] at htrue
          refine ⟨n, rfl, by omega, hchunk.take fun b' h => ?_⟩
          obtain rfl := Option.some.inj ((htake n b (by omega) hb).symm.trans h)
          exact not_continuation htrue

/-! ## The counts -/

theorem countSpaces4_spec {buf : List Nat} {groups src : Nat}
    (h : src + 4 * groups ≤ buf.length) : ∃ n, countSpaces4 buf groups src = some n := by
  induction groups generalizing src with
  | zero => exact ⟨0, rfl⟩
  | succ groups ih =>
      obtain ⟨b0, h0⟩ := getElem?_of_lt (show src < buf.length by omega)
      obtain ⟨b1, h1⟩ := getElem?_of_lt (show src + 1 < buf.length by omega)
      obtain ⟨b2, h2⟩ := getElem?_of_lt (show src + 2 < buf.length by omega)
      obtain ⟨b3, h3⟩ := getElem?_of_lt (show src + 3 < buf.length by omega)
      obtain ⟨rest, hrest⟩ := ih (show src + 4 + 4 * groups ≤ buf.length by omega)
      simp only [countSpaces4, h0, h1, h2, h3, hrest, Option.bind_eq_bind, Option.bind_some]
      exact ⟨_, rfl⟩

/-- The three tests by which the code tells the length of a character. -/
theorem mask_iff : ∀ b < 256, (b < 0x80 ∨ 0xC0 ≤ b) →
    (b < 0xC0 ↔ b ≤ 0x7F) ∧ (0xC0 ≤ b → (b &&& 0xE0 = 0xC0 ↔ b ≤ 0xDF)) ∧
      (0xE0 ≤ b → (b &&& 0xF0 = 0xE0 ↔ b ≤ 0xEF)) := by
  decide +kernel

/-- **The predictor takes whole characters**: in valid text its length is that of the
    character. -/
theorem pickChar_spec {buf chunk : List Nat} {src b : Nat} (hchunk : Valid (b :: chunk))
    (hread : b :: chunk <+: buf.drop src) :
    ∃ c, pickChar buf src = some (c, size b) := by
  have hb : ∀ n, n < chunk.length + 1 → ∃ b', buf[src + n]? = some b' := by
    intro n hn
    have hlen := hread.length_le
    rw [List.length_cons, List.length_drop] at hlen
    exact getElem?_of_lt (by omega)
  have hfirst : buf[src]? = some b := by
    obtain ⟨rest, hrest⟩ := hread
    rw [← List.head?_drop, ← hrest]
    rfl
  have hsize := hchunk.size_le.1
  obtain ⟨h1, h2, h3⟩ := mask_iff b (hchunk.lt b List.mem_cons_self)
    (hchunk.head.imp_right And.left)
  rw [size] at hsize ⊢
  rw [pickChar, hfirst, Option.bind_eq_bind, Option.bind_some]
  by_cases hone : b ≤ 0x7F
  · rw [if_pos (h1.mpr hone), if_pos hone]
    exact ⟨_, rfl⟩
  · rw [if_neg (mt h1.mp hone), if_neg hone]
    rw [if_neg hone] at hsize
    have hge : 0xC0 ≤ b := not_lt.mp (mt h1.mp hone)
    by_cases htwo : b ≤ 0xDF
    · rw [if_pos ((h2 hge).mpr htwo), if_pos htwo]
      rw [if_pos htwo] at hsize
      obtain ⟨b1, hb1⟩ := hb 1 (by omega)
      rw [hb1]
      exact ⟨_, rfl⟩
    · rw [if_neg (mt (h2 hge).mp htwo), if_neg htwo]
      rw [if_neg htwo] at hsize
      by_cases hthree : b ≤ 0xEF
      · rw [if_pos ((h3 (by omega)).mpr hthree), if_pos hthree]
        rw [if_pos hthree] at hsize
        obtain ⟨b1, hb1⟩ := hb 1 (by omega)
        obtain ⟨b2, hb2⟩ := hb 2 (by omega)
        rw [hb1, hb2]
        exact ⟨_, rfl⟩
      · rw [if_neg (mt (h3 (by omega)).mp hthree), if_neg hthree]
        rw [if_neg hthree] at hsize
        obtain ⟨b1, hb1⟩ := hb 1 (by omega)
        obtain ⟨b2, hb2⟩ := hb 2 (by omega)
        obtain ⟨b3, hb3⟩ := hb 3 (by omega)
        rw [hb1, hb2, hb3]
        exact ⟨_, rfl⟩

theorem size_pos (b : Nat) : 0 < size b := by
  rw [size]
  split_ifs <;> decide

/-- **The predictor** goes through a valid chunk, and stays inside its table. -/
theorem countPredictedBytes_spec {buf tbl : List Nat} {srclimit src hash p : Nat}
    (hlimit : srclimit ≤ buf.length) (hsrc : src ≤ srclimit)
    (hchunk : Valid ((buf.drop src).take (srclimit - src))) (hhash : hash < kPredictionTableSize)
    (htbl : tbl.length = kPredictionTableSize) :
    ∃ p' hash' tbl', countPredictedBytes buf srclimit src hash tbl p = some (p', hash', tbl') ∧
      hash' < kPredictionTableSize ∧ tbl'.length = kPredictionTableSize := by
  induction hn : srclimit - src using Nat.strong_induction_on generalizing src hash tbl p with
  | _ n ih =>
      rw [countPredictedBytes]
      by_cases hlt : src < srclimit
      · rw [if_pos hlt]
        have hlength : ((buf.drop src).take (srclimit - src)).length = srclimit - src := by
          rw [List.length_take, List.length_drop]
          omega
        obtain ⟨b, rest, hcons⟩ : ∃ b rest, (buf.drop src).take (srclimit - src) = b :: rest :=
          List.exists_cons_of_length_pos (by omega)
        rw [hcons] at hchunk hlength
        obtain ⟨c, hc⟩ := pickChar_spec hchunk (hcons ▸ List.take_prefix _ _)
        obtain ⟨hsize, hdrop⟩ := hchunk.size_le
        obtain ⟨q, hq⟩ := getElem?_of_lt (show hash < tbl.length by omega)
        have hpos := size_pos b
        rw [List.length_cons] at hlength
        rw [hc, Option.bind_eq_bind, Option.bind_some]
        cases hincr : size b with
        | zero => omega
        | succ incr =>
            rw [hincr] at hdrop hsize
            simp only [hq, Option.bind_eq_bind, Option.bind_some]
            refine ih (srclimit - (src + (incr + 1))) (by omega) (by omega) ?_ ?_ ?_ rfl
            · rw [← hcons, List.drop_take, List.drop_drop] at hdrop
              rwa [Nat.sub_sub] at hdrop
            · exact Nat.and_lt_two_pow (n := 12) _ (by decide)
            · rw [List.length_set, htbl]
      · rw [if_neg hlt]
        exact ⟨p, hash, tbl, rfl, hhash, htbl⟩

/-- **The end of a chunk** is moved to the end of a character; the zero stops it. -/
theorem charBoundary_spec {buf rest : List Nat} {src len : Nat}
    (hrest : buf.drop src = rest ++ [0]) (hvalid : Valid rest) (hlen : len ≤ rest.length) :
    ∃ len', charBoundary buf src len = some len' ∧ len ≤ len' ∧ len' ≤ rest.length ∧
      Valid (rest.take len') := by
  have hlength : buf.length = src + rest.length + 1 := by
    have := congrArg List.length hrest
    rw [List.length_drop, List.length_append, List.length_singleton] at this
    omega
  induction hn : rest.length - len using Nat.strong_induction_on generalizing len with
  | _ n ih =>
      obtain ⟨b, hb⟩ := getElem?_of_lt (show src + len < buf.length by omega)
      rw [charBoundary, if_pos (by omega), hb, Option.bind_eq_bind, Option.bind_some]
      have hb' : (rest ++ [0])[len]? = some b := by rw [← hrest, List.getElem?_drop, hb]
      rcases Nat.eq_or_lt_of_le hlen with rfl | hlt
      · -- at the zero
        rw [List.getElem?_append_right (le_refl _), Nat.sub_self] at hb'
        obtain rfl := Option.some.inj hb'
        exact ⟨rest.length, rfl, le_refl _, le_refl _, by rwa [List.take_length]⟩
      · rw [List.getElem?_append_left hlt] at hb'
        cases hcont : isContinuation b with
        | true =>
            obtain ⟨len', hrun, hle, hle', hcut⟩ :=
              ih (rest.length - (len + 1)) (by omega) (show len + 1 ≤ rest.length from hlt) rfl
            exact ⟨len', hrun, by omega, hle', hcut⟩
        | false =>
            refine ⟨len, rfl, le_refl _, hlen, hvalid.take fun b' h => ?_⟩
            obtain rfl := Option.some.inj (hb'.symm.trans h)
            exact not_continuation hcont

/-! ## Between the chunks -/

/-- **What holds at the head of the loop**: valid text from the input stands at the front,
    the rest of the input is where it was, and the place to write is not ahead of the place
    to read. -/
structure Squeezed (P : Char → Prop) (text : List Nat) (s : State) : Prop where
  length : s.buf.length = text.length + 1
  src_le : s.src ≤ text.length
  dst_le : s.dst ≤ s.src
  rest : s.buf.drop s.src = text.drop s.src ++ [0]
  cut : Encodes P (text.drop s.src)
  front : Encodes P (s.buf.take s.dst)
  sublist : (s.buf.take s.dst).Sublist (0x20 :: text.take s.src)
  hash : s.hash < kPredictionTableSize
  predictTbl : s.predictTbl.length = kPredictionTableSize

/-- The chunk that is read next, and what is behind it. -/
structure Chunk (P : Char → Prop) (text : List Nat) (s : State) (len : Nat) : Prop where
  le : s.src + len ≤ text.length
  chars : Encodes P ((text.drop s.src).take len)
  cut : Encodes P (text.drop (s.src + len))
  rest : s.buf.drop (s.src + len) = text.drop (s.src + len) ++ [0]
  read : (s.buf.drop s.src).take len = (text.drop s.src).take len

section Loop

variable {P : Char → Prop} {text : List Nat} {s : State}

/-- A chunk that starts where the last one ended, cut between two characters. -/
theorem Squeezed.chunk (hs : Squeezed P text s) {len : Nat}
    (hlen : len ≤ (text.drop s.src).length) (hvalid : Valid ((text.drop s.src).take len)) :
    Chunk P text s len := by
  have hle : s.src + len ≤ text.length := by
    have := hs.src_le
    rw [List.length_drop] at hlen
    omega
  obtain ⟨hchars, hcut⟩ := hs.cut.take_drop hvalid
  rw [List.drop_drop] at hcut
  refine ⟨hle, hchars, hcut, ?_, ?_⟩
  · rw [← List.drop_drop, hs.rest, List.drop_append_of_le_length hlen, List.drop_drop]
  · rw [hs.rest, List.take_append_of_le_length hlen]

/-- **From keeping to skipping**: the front is cut, and starts with a space if it was
    empty. -/
theorem startSkipping_spec (hspace : P ' ') (hs : Squeezed P text s) {len : Nat}
    (hpos : 0 < len) (hchunk : Chunk P text s len) :
    ∃ s', startSkipping s = some s' ∧ s'.src = s.src ∧
      Squeezed P text { s' with src := s.src + len } := by
  have hlength := hs.length
  have hle := hchunk.le
  have hdst := hs.dst_le
  obtain ⟨n, hn, hsome, hfront⟩ := backscan_spec (by omega) hs.front.valid
  rw [startSkipping, hn, Option.bind_eq_bind, Option.bind_some]
  by_cases hzero : s.dst - n = 0
  · rw [if_pos hzero, hzero, write, if_pos (by omega)]
    refine ⟨_, rfl, rfl, ?_⟩
    obtain ⟨b, rest, hbuf⟩ : ∃ b rest, s.buf = b :: rest :=
      List.exists_cons_of_length_pos (by omega)
    have htake : (s.buf.set 0 0x20).take (0 + 1) = [0x20] := by
      rw [hbuf]
      rfl
    exact {
      length := by rw [List.length_set, hlength]
      src_le := hle
      dst_le := by show 0 + 1 ≤ s.src + len; omega
      rest := by
        show (s.buf.set 0 0x20).drop (s.src + len) = _
        rw [List.drop_set_of_lt (by omega)]
        exact hchunk.rest
      cut := hchunk.cut
      front := by
        show Encodes P ((s.buf.set 0 0x20).take (0 + 1))
        rw [htake]
        exact ⟨[' '], by simpa using hspace, rfl⟩
      sublist := by
        show ((s.buf.set 0 0x20).take (0 + 1)).Sublist _
        rw [htake]
        exact List.singleton_sublist.mpr List.mem_cons_self
      hash := hs.hash
      predictTbl := hs.predictTbl }
  · rw [if_neg hzero]
    refine ⟨_, rfl, rfl, ?_⟩
    exact {
      length := hlength
      src_le := hle
      dst_le := by show s.dst - n ≤ s.src + len; omega
      rest := hchunk.rest
      cut := hchunk.cut
      front := by
        show Encodes P (s.buf.take (s.dst - n))
        have hless : (s.buf.take s.dst).take (s.dst - n) = s.buf.take (s.dst - n) := by
          rw [List.take_take, Nat.min_eq_left (Nat.sub_le _ _)]
        rw [← hless] at hfront ⊢
        exact (hs.front.take_drop hfront).1
      sublist := by
        show (s.buf.take (s.dst - n)).Sublist (0x20 :: text.take (s.src + len))
        have hless : (s.buf.take (s.dst - n)).Sublist (s.buf.take s.dst) :=
          (List.take_prefix_take_left (by omega)).sublist
        refine (hless.trans hs.sublist).trans ?_
        rw [List.take_add]
        exact (List.sublist_append_left _ _).cons_cons _
      hash := hs.hash
      predictTbl := hs.predictTbl }

/-- A chunk is passed over. -/
theorem Squeezed.pass (hs : Squeezed P text s) {len : Nat} (hchunk : Chunk P text s len) :
    Squeezed P text { s with src := s.src + len } where
  length := hs.length
  src_le := hchunk.le
  dst_le := le_trans hs.dst_le (Nat.le_add_right _ _)
  rest := hchunk.rest
  cut := hchunk.cut
  front := hs.front
  sublist := by
    refine hs.sublist.trans ?_
    rw [List.take_add]
    exact (List.sublist_append_left _ _).cons_cons _
  hash := hs.hash
  predictTbl := hs.predictTbl

/-- Inside the buffer, what is moved to the front overwrites nothing that is still to be
    read. -/
theorem memmove_spec {buf : List Nat} {dst src len : Nat} (hdst : dst ≤ src)
    (hlen : src + len ≤ buf.length) :
    ∃ buf', memmove buf dst src len = some buf' ∧ buf'.length = buf.length ∧
      buf'.take (dst + len) = buf.take dst ++ (buf.drop src).take len ∧
      ∀ i, src + len ≤ i → buf'.drop i = buf.drop i := by
  have hfront : (buf.take dst ++ (buf.drop src).take len).length = dst + len := by
    rw [List.length_append, List.length_take, List.length_take, List.length_drop]
    omega
  refine ⟨_, if_pos ⟨by omega, hlen⟩, ?_, ?_, fun i hi => ?_⟩
  · rw [List.length_append, hfront, List.length_drop]
    omega
  · rw [← hfront, List.take_left]
  · rw [List.drop_append, hfront, List.drop_drop, List.drop_eq_nil_of_le (by omega),
      List.nil_append, show dst + len + (i - (dst + len)) = i by omega]

/-- **The chunk is kept**, from a space on if text was skipped in front of it. -/
theorem keep_spec (hs : Squeezed P text s) {len : Nat} (hchunk : Chunk P text s len) :
    ∃ s', keep s len = some s' ∧ s'.src = s.src + len ∧ Squeezed P text s' := by
  have hlength := hs.length
  have hle := hchunk.le
  have hdst := hs.dst_le
  have hchars := hchunk.chars
  rw [← hchunk.read] at hchars
  obtain ⟨n, hn, hnle, hpiece⟩ : ∃ n, stopSkipping s len = some n ∧ n ≤ len ∧
      Encodes P (((s.buf.drop s.src).take len).drop n) := by
    rw [stopSkipping]
    split_ifs
    · obtain ⟨n, hn, hnle, hcut⟩ := forwardscan_spec (by omega) hchars.valid
      exact ⟨n, hn, hnle, (hchars.take_drop hcut).2⟩
    · exact ⟨0, rfl, Nat.zero_le _, hchars⟩
  simp only [keep, hn, Option.bind_eq_bind, Option.bind_some]
  by_cases hpos : 0 < len - n
  · rw [if_pos hpos]
    obtain ⟨buf', hmove, hlength', hfront, hrest⟩ :=
      memmove_spec (show s.dst ≤ s.src + n by omega)
        (show s.src + n + (len - n) ≤ s.buf.length by omega)
    rw [hmove]
    refine ⟨_, rfl, by show s.src + n + (len - n) = _; omega, ?_⟩
    rw [List.drop_take, List.drop_drop] at hpiece
    have hend : s.src + n + (len - n) = s.src + len := by omega
    exact {
      length := hlength'.trans hlength
      src_le := by show s.src + n + (len - n) ≤ _; omega
      dst_le := by show s.dst + (len - n) ≤ s.src + n + (len - n); omega
      rest := by
        show buf'.drop (s.src + n + (len - n)) = text.drop (s.src + n + (len - n)) ++ [0]
        rw [hrest _ (le_refl _), hend]
        exact hchunk.rest
      cut := by
        show Encodes P (text.drop (s.src + n + (len - n)))
        rw [hend]
        exact hchunk.cut
      front := by
        show Encodes P (buf'.take (s.dst + (len - n)))
        rw [hfront]
        exact hs.front.append hpiece
      sublist := by
        show (buf'.take (s.dst + (len - n))).Sublist
          (0x20 :: text.take (s.src + n + (len - n)))
        rw [hfront, hend, List.take_add, ← List.cons_append]
        refine hs.sublist.append ?_
        rw [← hchunk.read, ← List.drop_drop, ← List.drop_take]
        exact List.drop_sublist _ _
      hash := hs.hash
      predictTbl := hs.predictTbl }
  · rw [if_neg hpos]
    have hend : s.src + n + (len - n) = s.src + len := by omega
    refine ⟨_, rfl, hend, ?_⟩
    rw [hend]
    exact { hs.pass hchunk with }

/-! ## The loop -/

/-- **One turn** goes on by at least one byte. -/
theorem turn_spec (hspace : P ' ') (hs : Squeezed P text s) (hlt : s.src < text.length)
    {chunksize : Nat} (hsize : 0 < chunksize) :
    ∃ s', turn text.length chunksize s = some s' ∧ s.src < s'.src ∧ Squeezed P text s' := by
  have hlength := hs.length
  have hrest : (text.drop s.src).length = text.length - s.src := List.length_drop
  obtain ⟨len, hlen, hge, hle, hvalid⟩ := charBoundary_spec hs.rest hs.cut.valid
    (show min chunksize (text.length - s.src) ≤ (text.drop s.src).length by omega)
  have hchunk := hs.chunk hle hvalid
  obtain ⟨spaceN, hspaces⟩ := countSpaces4_spec (show s.src + 4 * (len / 4) ≤ s.buf.length by
    have := hchunk.le
    omega)
  obtain ⟨predbN, hash, tbl, hcount, hhash, htbl⟩ := countPredictedBytes_spec (p := 0)
    (show s.src + len ≤ s.buf.length by have := hchunk.le; omega) (Nat.le_add_right s.src len)
    (by rw [Nat.add_sub_cancel_left, hchunk.read]; exact hvalid) hs.hash hs.predictTbl
  have hs' : Squeezed P text { s with hash := hash, predictTbl := tbl } :=
    { hs with hash := hhash, predictTbl := htbl }
  have hchunk' : Chunk P text { s with hash := hash, predictTbl := tbl } len := { hchunk with }
  simp only [turn, hlen, hspaces, hcount, Option.bind_eq_bind, Option.bind_some]
  split_ifs with hdense hskipping
  · exact ⟨_, rfl, by show s.src < s.src + len; omega, hs'.pass hchunk'⟩
  · obtain ⟨s'', hstart, hsrc, hsqueezed⟩ := startSkipping_spec hspace hs' (by omega) hchunk'
    rw [hstart]
    refine ⟨_, rfl, ?_, ?_⟩
    · show s.src < s''.src + len
      rw [hsrc]
      show s.src < s.src + len
      omega
    · show Squeezed P text { s'' with src := s''.src + len }
      rw [hsrc]
      exact hsqueezed
  · obtain ⟨s'', hkeep, hsrc, hsqueezed⟩ := keep_spec hs' hchunk'
    refine ⟨s'', hkeep, ?_, hsqueezed⟩
    rw [hsrc]
    show s.src < s.src + len
    omega

/-- **The loop**, for as many turns as there are bytes. -/
theorem run_spec (hspace : P ' ') (hs : Squeezed P text s) {chunksize turns : Nat}
    (hsize : 0 < chunksize) (hturns : text.length < s.src + turns) :
    ∃ s', run text.length chunksize turns s = some s' ∧ Squeezed P text s' := by
  induction turns generalizing s with
  | zero =>
      have := hs.src_le
      omega
  | succ turns ih =>
      rw [run]
      by_cases hlt : s.src < text.length
      · obtain ⟨s', hturn, hsrc, hsqueezed⟩ := turn_spec hspace hs hlt hsize
        rw [if_pos hlt, hturn, Option.bind_eq_bind, Option.bind_some]
        exact ih hsqueezed (by omega)
      · rw [if_neg hlt]
        exact ⟨s, rfl, hs⟩

theorem write_spec {buf : List Nat} {dst b n : Nat} (hdst : dst < buf.length) (hn : n ≤ dst) :
    ∃ buf', write buf dst b = some buf' ∧ buf'.length = buf.length ∧
      buf'.take n = buf.take n :=
  ⟨_, if_pos hdst, List.length_set, List.take_set_of_le hn⟩

/-- What is put behind the text does not touch it. -/
theorem pad_spec (hs : Squeezed P text s) :
    ∃ buf, pad text.length s = some buf ∧ buf.length = text.length + 1 ∧
      buf.take s.dst = s.buf.take s.dst := by
  have hlength := hs.length
  rw [pad]
  split_ifs with hfour hone
  · obtain ⟨b0, h0, l0, t0⟩ := write_spec (b := 0x20)
      (show s.dst < s.buf.length by omega) (le_refl s.dst)
    obtain ⟨b1, h1, l1, t1⟩ := write_spec (b := 0x20)
      (show s.dst + 1 < b0.length by omega) (show s.dst ≤ s.dst + 1 by omega)
    obtain ⟨b2, h2, l2, t2⟩ := write_spec (b := 0x20)
      (show s.dst + 2 < b1.length by omega) (show s.dst ≤ s.dst + 2 by omega)
    obtain ⟨b3, h3, l3, t3⟩ := write_spec (b := 0)
      (show s.dst + 3 < b2.length by omega) (show s.dst ≤ s.dst + 3 by omega)
    simp only [h0, h1, h2, h3, Option.bind_eq_bind, Option.bind_some]
    exact ⟨b3, rfl, by omega, by rw [t3, t2, t1, t0]⟩
  · obtain ⟨b0, h0, l0, t0⟩ := write_spec (b := 0x20)
      (show s.dst < s.buf.length by omega) (le_refl s.dst)
    exact ⟨b0, h0, by omega, t0⟩
  · exact ⟨s.buf, rfl, hlength, rfl⟩

/-- The invariant holds of the state in which the loop is left, and the padding keeps it. -/
theorem squeezed_text (hspace : P ' ') (htext : Encodes P text) (ichunksize : Nat) {turns : Nat}
    (hturns : text.length < turns) :
    ∃ s buf, cheapSqueezeInplace (text ++ [0]) text.length ichunksize turns = some (s.dst, buf) ∧
      Squeezed P text s ∧ buf.length = text.length + 1 ∧ buf.take s.dst = s.buf.take s.dst := by
  have hstart : Squeezed P text
      ⟨text ++ [0], 0, 0, false, 0, List.replicate kPredictionTableSize 0⟩ := {
    length := by rw [List.length_append, List.length_singleton]
    src_le := Nat.zero_le _
    dst_le := le_refl _
    rest := by rw [List.drop_zero, List.drop_zero]
    cut := by rwa [List.drop_zero]
    front := by
      rw [List.take_zero]
      exact encodes_nil P
    sublist := by
      rw [List.take_zero]
      exact List.nil_sublist _
    hash := show 0 < kPredictionTableSize by decide
    predictTbl := List.length_replicate }
  have hsize : 0 < if ichunksize = 0 then kChunksizeDefault else ichunksize := by
    split_ifs with h
    · decide
    · omega
  obtain ⟨s, hrun, hs⟩ := run_spec hspace hstart hsize (show text.length < 0 + turns by omega)
  obtain ⟨buf, hpad, hlength, hfront⟩ := pad_spec hs
  refine ⟨s, buf, ?_, hs, hlength, hfront⟩
  simp only [cheapSqueezeInplace, hrun, hpad, Option.bind_eq_bind, Option.bind_some]
  rfl

end Loop

end TgnewsTextProcessing
