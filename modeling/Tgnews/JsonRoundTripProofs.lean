import Tgnews.JsonParserProofs
import Tgnews.MainProofs

/-! # The output is read back (`serializer.hpp`, `parser.hpp`)

    What the serializer writes with a width is a text of the grammar, whose white space the
    lexer skips.  The route:

    * `reads_text` — the text of a value is derived, whatever follows it;
    * **`parse_printJson`** — so what was printed is parsed back to the value;
    * **`parse_wellFormed`** — and no text at all makes the parser build a string that is
      not UTF-8, or an object whose keys are out of order;
    * **`news_output_parsed`** — the output of `news` is the list of the news. -/

namespace TgnewsJsonRoundTrip

open CxxText TgnewsIo TgnewsSerializer TgnewsJsonLexer TgnewsJsonParser

/-! ## Values that were written -/

mutual

/-- The value, as the parser builds it. -/
def toValue : Json → Value
  | .null => .null
  | .bool b => .boolean b
  | .str s => .string s
  | .int i => .number i.toInt
  | .uint n => .number n.toNat
  | .num q => .number q
  | .arr elems => .array (elemValues elems)
  | .obj fields => .object (fieldValues fields)

def elemValues : List Json → List Value
  | [] => []
  | v :: rest => toValue v :: elemValues rest

def fieldValues : List (Str × Json) → List (Str × Value)
  | [] => []
  | (k, v) :: rest => (k, toValue v) :: fieldValues rest

end

section Values

variable (strtod : Str → Option ℚ) (dumpFloat : ℚ → Str)

mutual

/-- The strings are bytes, a floating-point number is read as it was written, and the keys
    of an object are in the order of a `std::map`. -/
def Regular : Json → Prop
  | .null => True
  | .bool _ => True
  | .str s => IsBytes s
  | .int _ => True
  | .uint _ => True
  | .num q => ReadsAs strtod (dumpFloat q) q
  | .arr elems => ElemsRegular elems
  | .obj fields => FieldsRegular fields ∧ fields.Pairwise fun f g => f.1 < g.1

def ElemsRegular : List Json → Prop
  | [] => True
  | v :: rest => Regular v ∧ ElemsRegular rest

def FieldsRegular : List (Str × Json) → Prop
  | [] => True
  | (k, v) :: rest => (IsBytes k ∧ Regular v) ∧ FieldsRegular rest

end

/-! ### Objects -/

/-- A key behind all others goes to the end. -/
theorem assignField_last {α : Type} {k : Str} (v : α) {acc : List (Str × α)}
    (h : ∀ f ∈ acc, f.1 < k) : assignField k v acc = acc ++ [(k, v)] := by
  induction acc with
  | nil => rfl
  | cons f acc ih =>
      obtain ⟨k', v'⟩ := f
      have hlt : k' < k := h _ List.mem_cons_self
      rw [assignField, if_neg (ne_of_gt hlt), if_neg (lt_asymm hlt),
        ih fun f hf => h f (List.mem_cons_of_mem _ hf)]
      rfl

/-- Sorted members are assigned one behind the other. -/
theorem assignFields_sorted {fields acc : List (Str × Value)}
    (h : (acc ++ fields).Pairwise fun f g => f.1 < g.1) :
    assignFields fields acc = acc ++ fields := by
  induction fields generalizing acc with
  | nil => exact (List.append_nil acc).symm
  | cons f fields ih =>
      have hlast : ∀ g ∈ acc, g.1 < f.1 := fun g hg =>
        (List.pairwise_append.mp h).2.2 g hg f List.mem_cons_self
      rw [List.append_cons] at h ⊢
      rw [assignFields, List.foldl_cons, assignField_last f.2 hlast]
      exact ih h

theorem map_fst_fieldValues (fields : List (Str × Json)) :
    (fieldValues fields).map Prod.fst = fields.map Prod.fst := by
  induction fields with
  | nil => rfl
  | cons f fields ih =>
      obtain ⟨k, v⟩ := f
      rw [fieldValues, List.map_cons, List.map_cons, ih]

/-- The keys stay in order. -/
theorem pairwise_fieldValues {fields : List (Str × Json)}
    (h : fields.Pairwise fun f g => f.1 < g.1) :
    (fieldValues fields).Pairwise fun f g => f.1 < g.1 := by
  have hkeys : (fields.map Prod.fst).Pairwise (· < ·) := List.pairwise_map.mpr h
  rw [← map_fst_fieldValues] at hkeys
  exact List.pairwise_map.mp hkeys

/-! ### The text of a value is derived -/

/-- A token that reads as a number is the value of that number. -/
theorem scalar_of_number {token : Token} {q : ℚ} (h : token.number = some q) :
    scalar token = some (.number q) := by
  cases token
  case valueFloat x =>
      obtain rfl : x = some q := h
      rfl
  case valueUnsigned x =>
      obtain rfl : (x : ℚ) = q := Option.some.inj h
      rfl
  case valueInteger x =>
      obtain rfl : (x : ℚ) = q := Option.some.inj h
      rfl
  all_goals cases h

/-- A number is a value of the grammar. -/
theorem reads_number {t : Str} {q : ℚ} (h : ReadsAs strtod t q) {rest : Str}
    (hends : Ends rest) :
    Reads strtod (scan strtod (t ++ rest)).1 (scan strtod (t ++ rest)).2 (.number q) rest := by
  obtain ⟨token, hscan, hnumber⟩ := scan_number strtod h hends
  rw [hscan]
  exact .scalar (scalar_of_number hnumber)

/-- An integer of either type is in the range in which it is read back. -/
theorem readsAs_int (i : Int64) : ReadsAs strtod (decimal i.toInt) i.toInt :=
  readsAs_decimal strtod i.le_toInt (i.toInt_lt.trans (by norm_num))

theorem readsAs_uint (n : UInt64) : ReadsAs strtod (decimal n.toNat) n.toNat := by
  have hlt := n.toNat_lt
  have h := readsAs_decimal strtod (x := n.toNat) (by omega) (by omega)
  rwa [Int.cast_natCast] at h

/-- The texts behind the first one, each with the separator before it. -/
def behind (texts : List Str) (tail : Str) : Str :=
  texts.foldr (fun t acc => ',' :: '\n' :: (t ++ acc)) tail

/-- Texts joined with separators, as the parser meets them: one text, and what is behind it. -/
theorem intercalate_append (t : Str) (ts : List Str) (tail : Str) :
    List.intercalate [',', '\n'] (t :: ts) ++ tail = t ++ behind ts tail := by
  induction ts generalizing t with
  | nil =>
      rw [intercalate_cons, List.isEmpty_nil, if_pos rfl, List.append_nil]
      simp [behind]
  | cons t' ts ih =>
      rw [intercalate_cons, List.isEmpty_cons, if_neg Bool.false_ne_true, List.append_assoc, ih,
        List.append_assoc]
      rfl

/-- Behind a value stands a comma or a new line, so a number ends there. -/
theorem ends_behind (texts : List Str) (tail : Str) : Ends (behind texts ('\n' :: tail)) := by
  intro c hc
  cases texts with
  | nil => exact Or.inr (Option.some.inj hc).symm
  | cons t ts => exact Or.inl (Option.some.inj hc).symm

theorem scan_newline (s : Str) : scan strtod ('\n' :: s) = scan strtod s :=
  scan_space strtod rfl s

theorem scan_comma (s : Str) : scan strtod (',' :: s) = (.valueSeparator, s) :=
  scan_structural strtod rfl rfl s

theorem scan_colon (s : Str) : scan strtod (':' :: s) = (.nameSeparator, s) :=
  scan_structural strtod rfl rfl s

/-- The bracket on the line below is a token. -/
theorem scan_closing (n : Nat) (c : Char) {token : Token}
    (hspace : TgnewsJsonLexer.isSpace c = false) (hc : structural c = some token) (s : Str) :
    scan strtod ('\n' :: (indentation n ++ c :: s)) = (token, s) := by
  rw [scan_newline, scan_indentation, scan_structural strtod hspace hc]

/-- The text of an array that is not empty, from the bracket to what follows it. -/
theorem text_arr_append (n : Nat) (v : Json) (elems : List Json) (rest : Str) :
    text dumpFloat n (.arr (v :: elems)) ++ rest
      = '[' :: '\n' :: (indentation (n + indentStep) ++ (text dumpFloat (n + indentStep) v
        ++ behind (elemTexts dumpFloat (n + indentStep) elems)
          ('\n' :: (indentation n ++ ']' :: rest)))) := by
  have h := intercalate_append (indentation (n + indentStep) ++ text dumpFloat (n + indentStep) v)
    (elemTexts dumpFloat (n + indentStep) elems) ('\n' :: (indentation n ++ ']' :: rest))
  rw [List.append_assoc] at h
  rw [text, List.isEmpty_cons, if_neg Bool.false_ne_true, elemTexts, ← h]
  simp only [List.append_assoc, List.cons_append, List.nil_append]

/-- The text of an object, with its first key. -/
theorem text_obj_append (n : Nat) (k : Str) (v : Json) (fields : List (Str × Json)) (rest : Str) :
    text dumpFloat n (.obj ((k, v) :: fields)) ++ rest
      = '\x7b' :: '\n' :: (indentation (n + indentStep) ++ '"' :: (escape k ++ '"' :: ':' :: ' ' ::
        (text dumpFloat (n + indentStep) v
          ++ behind (fieldTexts dumpFloat (n + indentStep) fields)
            ('\n' :: (indentation n ++ '\x7d' :: rest))))) := by
  have h := intercalate_append (indentation (n + indentStep) ++ (['"'] ++ escape k
      ++ ['"', ':', ' ']) ++ text dumpFloat (n + indentStep) v)
    (fieldTexts dumpFloat (n + indentStep) fields) ('\n' :: (indentation n ++ '\x7d' :: rest))
  rw [text, List.isEmpty_cons, if_neg Bool.false_ne_true, fieldTexts]
  simp only [List.append_assoc, List.cons_append, List.nil_append] at h ⊢
  rw [h]

/-- The key on the next line is a token. -/
theorem scan_key {k : Str} (hk : ValidUtf8 k) (hbytes : IsBytes k) (n : Nat) (s : Str) :
    scan strtod ('\n' :: (indentation n ++ '"' :: (escape k ++ '"' :: s)))
      = (.valueString k, s) := by
  rw [scan_newline, scan_indentation, scan_string strtod hk hbytes]

/-- The lexer goes on to the value on the next line. -/
theorem scan_value (n : Nat) (s : Str) :
    scan strtod ('\n' :: (indentation n ++ s)) = scan strtod s := by
  rw [scan_newline, scan_indentation]

mutual

/-- **The text of a value is derived**, if a comma or a new line follows. -/
theorem reads_text (n : Nat) : ∀ {j : Json}, AllUtf8 j → Regular strtod dumpFloat j →
    ∀ {rest : Str}, Ends rest →
    Reads strtod (scan strtod (text dumpFloat n j ++ rest)).1
      (scan strtod (text dumpFloat n j ++ rest)).2 (toValue j) rest
  | .null, _, _, rest, _ => by
      rw [text, scan_null, toValue]
      exact .scalar rfl
  | .str s, hutf8, hregular, rest, _ => by
      have hscan := scan_string strtod hutf8 hregular rest
      have htext : text dumpFloat n (.str s) ++ rest = '"' :: (escape s ++ '"' :: rest) := by
        rw [text]
        simp
      rw [htext, hscan, toValue]
      exact .scalar rfl
  | .bool true, _, _, rest, _ => by
      rw [text, if_pos rfl, scan_true, toValue]
      exact .scalar rfl
  | .bool false, _, _, rest, _ => by
      rw [text, if_neg Bool.false_ne_true, scan_false, toValue]
      exact .scalar rfl
  | .int i, _, _, rest, hends => by
      rw [text, toValue]
      exact reads_number strtod (readsAs_int strtod i) hends
  | .uint n, _, _, rest, hends => by
      rw [text, toValue]
      exact reads_number strtod (readsAs_uint strtod n) hends
  | .num q, _, hregular, rest, hends => by
      rw [text, toValue]
      exact reads_number strtod hregular hends
  | .arr [], _, _, rest, _ => .emptyArray (scan_structural strtod rfl rfl rest)
  | .arr (v :: elems), hutf8, hregular, rest, _ => by
      rw [text_arr_append, scan_structural strtod rfl rfl]
      have hv := reads_text (n + indentStep) hutf8.1 hregular.1
        (ends_behind (elemTexts dumpFloat (n + indentStep) elems) (indentation n ++ ']' :: rest))
      rw [← scan_value strtod (n + indentStep)] at hv
      exact .array hv (elemsAfter_text (n + indentStep) n hutf8.2 hregular.2)
  | .obj [], _, _, rest, _ => .emptyObject (scan_structural strtod rfl rfl rest)
  | .obj ((k, v) :: fields), hutf8, hregular, rest, _ => by
      rw [text_obj_append, scan_structural strtod rfl rfl]
      have hv := reads_text (n + indentStep) hutf8.1.2 hregular.1.1.2
        (ends_behind (fieldTexts dumpFloat (n + indentStep) fields)
          (indentation n ++ '\x7d' :: rest))
      rw [← scan_space strtod (c := ' ') rfl] at hv
      have hobject := Reads.object (scan_key strtod hutf8.1.1 hregular.1.1.1 (n + indentStep) _)
        (scan_colon strtod _) hv (fieldsAfter_text (n + indentStep) n hutf8.2 hregular.1.2)
      rw [assignFields_sorted (pairwise_fieldValues hregular.2)] at hobject
      exact hobject

/-- The texts behind the first element are derived as the rest of an array. -/
theorem elemsAfter_text (n m : Nat) : ∀ {elems : List Json}, ElemsUtf8 elems →
    ElemsRegular strtod dumpFloat elems → ∀ {rest : Str},
    ElemsAfter strtod
      (behind (elemTexts dumpFloat n elems) ('\n' :: (indentation m ++ ']' :: rest)))
      (elemValues elems) rest
  | [], _, _, rest => .close (scan_closing strtod m ']' rfl rfl rest)
  | v :: elems, hutf8, hregular, rest => by
      have hv := reads_text n hutf8.1 hregular.1
        (ends_behind (elemTexts dumpFloat n elems) (indentation m ++ ']' :: rest))
      rw [← scan_value strtod n, ← List.append_assoc] at hv
      exact .comma (scan_comma strtod _) hv (elemsAfter_text n m hutf8.2 hregular.2)

/-- Those of an object likewise. -/
theorem fieldsAfter_text (n m : Nat) : ∀ {fields : List (Str × Json)}, FieldsUtf8 fields →
    FieldsRegular strtod dumpFloat fields → ∀ {rest : Str},
    FieldsAfter strtod
      (behind (fieldTexts dumpFloat n fields) ('\n' :: (indentation m ++ '\x7d' :: rest)))
      (fieldValues fields) rest
  | [], _, _, rest => .close (scan_closing strtod m '\x7d' rfl rfl rest)
  | (k, v) :: fields, hutf8, hregular, rest => by
      have hv := reads_text n hutf8.1.2 hregular.1.2
        (ends_behind (fieldTexts dumpFloat n fields) (indentation m ++ '\x7d' :: rest))
      rw [← scan_space strtod (c := ' ') rfl] at hv
      have hkey := scan_key strtod hutf8.1.1 hregular.1.1 n (':' :: ' ' :: (text dumpFloat n v
        ++ behind (fieldTexts dumpFloat n fields) ('\n' :: (indentation m ++ '\x7d' :: rest))))
      have hcomma := FieldsAfter.comma (scan_comma strtod _) hkey (scan_colon strtod _) hv
        (fieldsAfter_text n m hutf8.2 hregular.2)
      rw [fieldTexts, behind, List.foldr_cons]
      simp only [List.append_assoc, List.cons_append, List.nil_append]
      exact hcomma

end

/-- Without the first byte of a byte order mark, the first token is read like the others. -/
theorem firstScan_of_ne {c : Char} (h : byteOf c ≠ 0xEF) (s : Str) :
    firstScan strtod (c :: s) = scan strtod (c :: s) := by
  rw [firstScan.eq_def]
  exact if_neg h

/-- Nor has a number. -/
theorem firstScan_number {t : Str} {q : ℚ} (h : ReadsAs strtod t q) (rest : Str) :
    firstScan strtod (t ++ rest) = scan strtod (t ++ rest) := by
  obtain ⟨c, state, digits, token, rfl, hfirst, -, -⟩ := h
  rw [List.cons_append]
  refine firstScan_of_ne strtod ?_ _
  have hcode := toNat_of_firstState hfirst
  rw [byteOf]
  omega

/-- The text of a value has no byte order mark. -/
theorem firstScan_text (n : Nat) {j : Json} (h : Regular strtod dumpFloat j) (rest : Str) :
    firstScan strtod (text dumpFloat n j ++ rest) = scan strtod (text dumpFloat n j ++ rest) := by
  cases j with
  | null => rfl
  | bool b => cases b <;> rfl
  | str s => rfl
  | int i => exact firstScan_number strtod (readsAs_int strtod i) rest
  | uint n => exact firstScan_number strtod (readsAs_uint strtod n) rest
  | num q => exact firstScan_number strtod h rest
  | arr elems => cases elems <;> rfl
  | obj fields => cases fields <;> rfl

/-- A text that was printed is parsed. -/
theorem parse_text {j : Json} (hregular : Regular strtod dumpFloat j) (hutf8 : AllUtf8 j) :
    parse strtod (jsonLine dumpFloat j) = .ok (toValue j) := by
  have hends : Ends ['\n'] := fun c hc => Or.inr (Option.some.inj hc).symm
  refine parse_of_isText strtod ⟨['\n'], ?_, rfl⟩
  rw [jsonLine, firstScan_text strtod dumpFloat 0 hregular]
  exact reads_text strtod dumpFloat 0 hutf8 hregular hends

/-- **What was printed is parsed back**: whenever printing a regular value does not throw,
    parsing what it has written gives the value. -/
theorem parse_printJson (j : Json) (hregular : Regular strtod dumpFloat j) (out : Str)
    (hprint : printJson dumpFloat j [] = .ok () out) : parse strtod out = .ok (toValue j) := by
  have hprints := printJson_prints dumpFloat j
  have hutf8 : AllUtf8 j := by
    by_contra hnot
    obtain ⟨out', hthrows⟩ := hprints.throws hnot []
    cases hprint.symm.trans hthrows
  have hout : out = jsonLine dumpFloat j := by
    cases hprint.symm.trans (hprints.writes hutf8 [])
    rfl
  rw [hout]
  exact parse_text strtod dumpFloat hregular hutf8

/-- A value with each kind of value in it; the name takes three escapes and two bytes of
    UTF-8. -/
def sampleJson : Json :=
  .arr [.null, .arr [], .bool true, .int (-70), .uint 1234, .num (1 / 2),
    .obj [("name".toList, .str ['"', '\n', '\x07', '\xc3', '\xa9']), ("sub".toList, .obj [])]]

def sampleDump (_ : ℚ) : Str := "0.5".toList

def sampleStrtod (_ : Str) : Option ℚ := some (1 / 2)

theorem regular_sampleJson : Regular sampleStrtod sampleDump sampleJson := by
  have hhalf : ReadsAs sampleStrtod (sampleDump (1 / 2)) (1 / 2) :=
    ⟨'0', .zero, ".5".toList, .valueFloat (some (1 / 2)), rfl, rfl, rfl, rfl⟩
  have hname : IsBytes "name".toList := by decide +kernel
  have hstr : IsBytes ['"', '\n', '\x07', '\xc3', '\xa9'] := by decide +kernel
  have hsub : IsBytes "sub".toList := by decide +kernel
  refine ⟨trivial, trivial, trivial, trivial, trivial, hhalf,
    ⟨⟨⟨hname, hstr⟩, ⟨hsub, trivial, List.Pairwise.nil⟩, trivial⟩, ?_⟩, trivial⟩
  exact List.pairwise_pair.mpr (by decide)

/-- Its strings are valid UTF-8. -/
theorem allUtf8_sampleJson : AllUtf8 sampleJson := by
  have hname : ValidUtf8 "name".toList := by decide +kernel
  have hstr : ValidUtf8 ['"', '\n', '\x07', '\xc3', '\xa9'] := by decide +kernel
  have hsub : ValidUtf8 "sub".toList := by decide +kernel
  exact ⟨trivial, trivial, trivial, trivial, trivial, trivial,
    ⟨⟨⟨hname, hstr⟩, ⟨hsub, trivial⟩, trivial⟩, trivial⟩⟩

theorem parse_printJson_sample :
    parse sampleStrtod (jsonLine sampleDump sampleJson) = .ok (toValue sampleJson) :=
  parse_printJson sampleStrtod sampleDump sampleJson regular_sampleJson _
    ((printJson_prints sampleDump sampleJson).writes allUtf8_sampleJson [])

/-! ## Values that are accepted -/

end Values

mutual

/-- Strings are valid UTF-8, and the keys of an object are in order, each once. -/
def WellFormed : Value → Prop
  | .null => True
  | .boolean _ => True
  | .number _ => True
  | .string s => ValidUtf8 s
  | .array elems => ElemsWellFormed elems
  | .object fields => FieldsWellFormed fields ∧ fields.Pairwise fun f g => f.1 < g.1

def ElemsWellFormed : List Value → Prop
  | [] => True
  | v :: rest => WellFormed v ∧ ElemsWellFormed rest

def FieldsWellFormed : List (Str × Value) → Prop
  | [] => True
  | (k, v) :: rest => (ValidUtf8 k ∧ WellFormed v) ∧ FieldsWellFormed rest

end

theorem fieldsWellFormed_iff (fields : List (Str × Value)) :
    FieldsWellFormed fields ↔ ∀ f ∈ fields, ValidUtf8 f.1 ∧ WellFormed f.2 := by
  induction fields with
  | nil => simp [FieldsWellFormed]
  | cons f fields ih =>
      obtain ⟨k, v⟩ := f
      rw [FieldsWellFormed, ih, List.forall_mem_cons]

/-- Assignment adds no other member. -/
theorem mem_assignField {α : Type} {k : Str} {v : α} {acc : List (Str × α)} {f : Str × α}
    (h : f ∈ assignField k v acc) : f = (k, v) ∨ f ∈ acc := by
  induction acc with
  | nil => exact Or.inl (List.mem_singleton.mp h)
  | cons g acc ih =>
      obtain ⟨k', v'⟩ := g
      rw [assignField] at h
      split_ifs at h
      · exact (List.mem_cons.mp h).imp_right (List.mem_cons_of_mem _)
      · exact (List.mem_cons.mp h)
      · rcases List.mem_cons.mp h with rfl | h
        · exact Or.inr List.mem_cons_self
        · exact (ih h).imp_right (List.mem_cons_of_mem _)

/-- Assignment keeps the order of the keys. -/
theorem pairwise_assignField {α : Type} (k : Str) (v : α) {acc : List (Str × α)}
    (h : acc.Pairwise fun f g => f.1 < g.1) :
    (assignField k v acc).Pairwise fun f g => f.1 < g.1 := by
  induction acc with
  | nil => exact List.pairwise_singleton _ _
  | cons g acc ih =>
      obtain ⟨k', v'⟩ := g
      obtain ⟨hhead, htail⟩ := List.pairwise_cons.mp h
      rw [assignField]
      split_ifs with heq hlt
      · subst heq
        exact List.pairwise_cons.mpr ⟨hhead, htail⟩
      · refine List.pairwise_cons.mpr ⟨fun f hf => ?_, h⟩
        rcases List.mem_cons.mp hf with rfl | hf
        · exact hlt
        · exact lt_trans hlt (hhead f hf)
      · refine List.pairwise_cons.mpr ⟨fun f hf => ?_, ih htail⟩
        rcases mem_assignField hf with rfl | hf
        · exact lt_of_le_of_ne (not_lt.mp hlt) (Ne.symm heq)
        · exact hhead f hf

/-- Members that are assigned one behind the other make a well-formed object. -/
theorem wellFormed_assignFields {fields acc : List (Str × Value)}
    (hfields : FieldsWellFormed fields) (hacc : FieldsWellFormed acc)
    (hsorted : acc.Pairwise fun f g => f.1 < g.1) :
    WellFormed (.object (assignFields fields acc)) := by
  induction fields generalizing acc with
  | nil => exact ⟨hacc, hsorted⟩
  | cons f fields ih =>
      obtain ⟨k, v⟩ := f
      refine ih hfields.2 ?_ (pairwise_assignField k v hsorted)
      rw [fieldsWellFormed_iff] at hacc ⊢
      intro g hg
      rcases mem_assignField hg with rfl | hg
      · exact hfields.1
      · exact hacc g hg

section Reading

variable (strtod : Str → Option ℚ)

/-- A literal is read whole, or there is an error. -/
theorem scanLiteral_cases {token token' : Token} {expected input r : Str}
    (h : scanLiteral token expected input = (token', r)) :
    token' = token ∨ token' = .parseError "invalid literal".toList := by
  induction expected generalizing input with
  | nil => exact Or.inl (Prod.mk.inj h).1.symm
  | cons e expected ih =>
      cases input with
      | nil => exact Or.inr (Prod.mk.inj h).1.symm
      | cons c input =>
          rw [scanLiteral] at h
          split_ifs at h
          · exact ih h
          · exact Or.inr (Prod.mk.inj h).1.symm

/-- A number is no string. -/
theorem numberToken_ne (t : NumberType) (buffer s : Str) :
    numberToken strtod t buffer ≠ .valueString s := by
  rw [numberToken.eq_def]
  split
  · split_ifs <;> simp
  · split_ifs <;> simp
  · simp

/-- Only a quote starts a string token. -/
theorem scanToken_string {c : Char} {s k r : Str} (h : scanToken strtod c s = (.valueString k, r)) :
    scanString [] s = (.valueString k, r) := by
  rw [scanToken] at h
  split at h
  · rename_i token htoken
    obtain ⟨rfl, -⟩ := Prod.mk.inj h
    rw [structural] at htoken
    split_ifs at htoken
    all_goals cases htoken
  · split at h
    · rename_i token expected hliteral
      rw [TgnewsJsonLexer.literal] at hliteral
      rcases scanLiteral_cases h with rfl | htoken
      · split_ifs at hliteral
        all_goals cases (Prod.mk.inj (Option.some.inj hliteral)).1
      · cases htoken
    · by_cases hquote : c = '"'
      · rw [if_pos hquote] at h
        exact h
      · rw [if_neg hquote] at h
        split at h
        · rw [scanNumber] at h
          split at h
          · exact absurd (Prod.mk.inj h).1 (numberToken_ne strtod _ _ _)
          · cases (Prod.mk.inj h).1
        · split_ifs at h
          all_goals cases (Prod.mk.inj h).1

/-- A string token of the lexer is valid UTF-8. -/
theorem validUtf8_scan {s k r : Str} (h : scan strtod s = (.valueString k, r)) : ValidUtf8 k := by
  rw [scan] at h
  split at h
  · cases (Prod.mk.inj h).1
  · exact scanString_valid (by decide) (scanToken_string strtod h)

/-- Nor does a byte order mark change this. -/
theorem validUtf8_firstScan {s k r : Str} (h : firstScan strtod s = (.valueString k, r)) :
    ValidUtf8 k := by
  rw [firstScan.eq_def] at h
  split at h
  · split_ifs at h
    · split at h
      · split_ifs at h
        · exact validUtf8_scan strtod h
        · cases (Prod.mk.inj h).1
      · cases (Prod.mk.inj h).1
    · exact validUtf8_scan strtod h
  · exact validUtf8_scan strtod h

/-- A value without parts is well formed, if its string is. -/
theorem wellFormed_scalar {token : Token} {v : Value} (h : scalar token = some v)
    (htoken : ∀ s, token = .valueString s → ValidUtf8 s) : WellFormed v := by
  rw [scalar.eq_def] at h
  split at h
  case h_4 => exact Option.some.inj h ▸ htoken _ rfl
  case h_8 => cases h
  all_goals exact Option.some.inj h ▸ trivial

mutual

/-- **A value of the grammar is well formed.** -/
theorem wellFormed_of_reads : ∀ {token : Token} {s : Str} {v : Value} {r : Str},
    Reads strtod token s v r → (∀ k, token = .valueString k → ValidUtf8 k) → WellFormed v
  | _, _, _, _, .scalar hv, htoken => wellFormed_scalar hv htoken
  | _, _, _, _, .emptyArray _, _ => trivial
  | _, _, _, _, .emptyObject _, _ => ⟨trivial, List.Pairwise.nil⟩
  | _, _, _, _, .array hv hvs, _ =>
      ⟨wellFormed_of_reads hv fun _ hk => validUtf8_scan strtod (Prod.ext hk rfl),
        wellFormed_of_elemsAfter hvs⟩
  | _, _, _, _, .object hk _ hv hfields, _ => by
      have hvalue := wellFormed_of_reads hv fun _ hk => validUtf8_scan strtod (Prod.ext hk rfl)
      exact wellFormed_assignFields
        ⟨⟨validUtf8_scan strtod hk, hvalue⟩, wellFormed_of_fieldsAfter hfields⟩ trivial
        List.Pairwise.nil

/-- The rest of an array. -/
theorem wellFormed_of_elemsAfter : ∀ {s : Str} {vs : List Value} {r : Str},
    ElemsAfter strtod s vs r → ElemsWellFormed vs
  | _, _, _, .close _ => trivial
  | _, _, _, .comma _ hv hvs =>
      ⟨wellFormed_of_reads hv fun _ hk => validUtf8_scan strtod (Prod.ext hk rfl),
        wellFormed_of_elemsAfter hvs⟩

/-- The rest of an object. -/
theorem wellFormed_of_fieldsAfter : ∀ {s : Str} {fields : List (Str × Value)} {r : Str},
    FieldsAfter strtod s fields r → FieldsWellFormed fields
  | _, _, _, .close _ => trivial
  | _, _, _, .comma _ hk _ hv hfields =>
      ⟨⟨validUtf8_scan strtod hk, wellFormed_of_reads hv fun _ hk =>
        validUtf8_scan strtod (Prod.ext hk rfl)⟩, wellFormed_of_fieldsAfter hfields⟩

end

/-- **What the parser accepts is well formed**, whatever the text. -/
theorem parse_wellFormed (input : Str) (v : Value) (h : parse strtod input = .ok v) :
    WellFormed v := by
  obtain ⟨r, hv, -⟩ := isText_of_parse strtod h
  exact wellFormed_of_reads strtod hv fun k hk => validUtf8_firstScan strtod (Prod.ext hk rfl)

end Reading

theorem parse_wellFormed_sample : WellFormed (toValue sampleJson) :=
  parse_wellFormed sampleStrtod _ _
    (parse_text sampleStrtod sampleDump regular_sampleJson allUtf8_sampleJson)

/-! ## The output of `news` -/

section News

open ForkJoin TgnewsDump TgnewsMain TgnewsGlob TgnewsTasks TgnewsFeatures TgnewsStages

theorem regular_ofNames (strtod : Str → Option ℚ) (dumpFloat : ℚ → Str) {names : List Str}
    (h : ∀ r ∈ names, IsBytes r) : Regular strtod dumpFloat (.ofNames names) := by
  rw [Json.ofNames, Regular]
  induction names with
  | nil => trivial
  | cons r names ih =>
      exact ⟨h r List.mem_cons_self, ih fun r hr => h r (List.mem_cons_of_mem _ hr)⟩

/-- A list of names is an array of strings. -/
theorem toValue_ofNames (names : List Str) :
    toValue (.ofNames names) = .array (names.map .string) := by
  rw [Json.ofNames, toValue]
  congr 1
  induction names with
  | nil => rfl
  | cons r names ih => rw [List.map_cons, elemValues, ih, List.map_cons, toValue]

/-- The result of `news` is regular, if the names are bytes. -/
theorem regular_newsJson (strtod : Str → Option ℚ) (dumpFloat : ℚ → Str) {names : List Str}
    (h : ∀ r ∈ names, IsBytes r) : Regular strtod dumpFloat (newsJson names) :=
  ⟨⟨⟨by decide, regular_ofNames strtod dumpFloat h⟩, trivial⟩, List.pairwise_singleton _ _⟩

variable {M R S : Type}

/-- **The output of `news` is read back as the news**: whenever the process exits, under
    whatever schedule, parsing its standard output gives the relative names of exactly the
    files that are news. -/
theorem news_output_parsed (w : World M R S) (htext : TextDetermined w.env.tools)
    {inputFolder : Str} (hf : inputFolder ≠ []) {dir : Directory}
    (hn : (htmlFiles inputFolder dir).length < 2 ^ 60)
    (hbytes : ∀ r ∈ relNames inputFolder dir, IsBytes r) (strtod : Str → Option ℚ)
    (outputFname : Str) (out : Output)
    (hexits : Finishes (tgnews w "news".toList inputFolder outputFname dir) (.ok out)) :
    parse strtod out.stdout = .ok (.object [("articles".toList,
      .array ((newsNames w.env inputFolder (relNames inputFolder dir)).map .string))]) := by
  obtain ⟨hread, htask⟩ := (tgnews_exits_iff w htext _ _ _ hn out).mp hexits
  have hprinted : printed (newsTask w.env inputFolder (htmlFiles inputFolder dir))
      = .ok out := htask
  rw [(htmlFiles_eq_map hread.long).1] at hprinted
  obtain ⟨hvalid, rfl⟩ := (printed_ok_iff (newsTask_prints w.env hf _) out).mp hprinted
  have hnames : ∀ r ∈ newsNames w.env inputFolder (relNames inputFolder dir), IsBytes r :=
    fun r hr => hbytes r (List.mem_of_mem_filter hr)
  rw [parse_text strtod w.env.dumpFloat (regular_newsJson strtod _ hnames)
    ((allUtf8_newsJson _).mpr hvalid), newsJson, toValue, fieldValues, fieldValues,
    toValue_ofNames]

theorem news_output_parsed_twoPages :
    parse (fun _ => none) (jsonLine (fun _ => []) (newsJson ["a.html".toList,
      "b.html".toList])) = .ok (.object [("articles".toList,
        .array [.string "a.html".toList, .string "b.html".toList])]) := by
  have hnames : newsNames (sampleWorld fun _ => true).env "in".toList
      (relNames "in".toList twoPages) = ["a.html".toList, "b.html".toList] := by
    decide +kernel
  have hexits : Finishes (tgnews (sampleWorld fun _ => true) "news".toList "in".toList []
      twoPages) (.ok ⟨jsonLine (fun _ => []) (newsJson ["a.html".toList, "b.html".toList]),
        none⟩) := by
    refine (tgnews_exits_iff (sampleWorld fun _ => true) sampleTools_textDetermined _ _ _
      length_htmlFiles_twoPages _).mpr ⟨readable_twoPages, ?_⟩
    show printed (newsTask _ _ (htmlFiles "in".toList twoPages)) = _
    have hprints := newsTask_prints (sampleWorld fun _ => true).env
      (show "in".toList ≠ [] by decide) (relNames "in".toList twoPages)
    rw [hnames] at hprints
    rw [(htmlFiles_eq_map readable_twoPages.long).1]
    exact (printed_ok_iff hprints _).mpr ⟨by decide +kernel, rfl⟩
  have h := news_output_parsed (sampleWorld fun _ => true) sampleTools_textDetermined
    (show "in".toList ≠ [] by decide) length_htmlFiles_twoPages (by decide +kernel)
    (fun _ => none) [] _ hexits
  rw [hnames] at h
  exact h

end News

end TgnewsJsonRoundTrip
