import GeminiCpp.Logging
import Mathlib.Data.List.Forall2
import Mathlib.Data.List.TakeWhile

/-! When a call of the logger writes one record, from which its fields can be read back. In JSON
mode it always does. In text mode a value without spaces is written as it is, so that its line
breaks and its NULs end the record. -/
namespace GeminiCpp.Log

def quote : UInt8 := 0x22
def backslash : UInt8 := 0x5C

/-- The inside of a JSON string: control characters, quotes and backslashes only stand in escape
sequences. -/
inductive StringBody : Bytes → Prop
  | nil : StringBody []
  | plain {b s} (hb : 0x20 ≤ b) (hquote : b ≠ quote) (hbackslash : b ≠ backslash)
      (h : StringBody s) : StringBody (b :: s)
  | escape {b s} (hb : 0x20 ≤ b) (h : StringBody s) : StringBody (backslash :: b :: s)

/-- What the compact printer does with strings, and with objects of strings. -/
structure Prints (dump : Json → Bytes) : Prop where
  string : ∀ v, ∃ body, dump (.str v) = quote :: (body ++ [quote]) ∧ StringBody body
  object : ∀ fields : List (Bytes × Json), (∀ kv ∈ fields, ∃ v, kv.2 = .str v) →
    dump (.obj fields) = ascii "\x7b" ++ (ascii ",").intercalate
      (fields.map fun kv => dump (.str kv.1) ++ colon :: dump kv.2) ++ ascii "\x7d"

/-- Parsing recovers a printed string, up to the replacement of invalid UTF-8. -/
def Recovers (text : JsonText) (dump : Json → Bytes) (v : Bytes) : Prop :=
  text.parse (dump (.str v)) = some (.str (Utf8.replaceInvalid v))

/-- White space of `isspace`. -/
def isSpace (b : UInt8) : Bool := b = space || (0x09 ≤ b && b ≤ 0x0D)

/-- A word that cannot be taken for anything else. -/
structure PlainWord (key : Bytes) : Prop where
  nonempty : key ≠ []
  plain : ∀ b ∈ key, 0x20 < b ∧ b ≠ quote ∧ b ≠ 0x3D

/-- The byte neither breaks the line nor ends the C string. -/
def Fits (b : UInt8) : Prop := b ≠ lf ∧ b ≠ cr ∧ b ≠ 0

/-- The whole record is written, as one line. -/
structure OneRecord (record written : Bytes) : Prop where
  whole : written = record ++ [lf]
  noBreak : ∀ b ∈ record, b ≠ lf ∧ b ≠ cr

/-- The body of a JSON string and what follows its closing quote. -/
def splitString : Bytes → Option (Bytes × Bytes)
  | [] => none
  | b :: s =>
    if b = quote then some ([], s)
    else if b = backslash then
      match s with
      | [] => none
      | c :: s => (splitString s).map fun r => (b :: c :: r.1, r.2)
    else (splitString s).map fun r => (b :: r.1, r.2)

/-- Reads a value: a JSON string, or everything up to the next space. -/
def readValue (text : JsonText) (s : Bytes) : Option (Bytes × Bytes) :=
  match s with
  | [] => some ([], [])
  | b :: rest =>
    if b = quote then do
      let (body, rest) ← splitString rest
      match text.parse (quote :: (body ++ [quote])) with
      | some (.str v) => some (v, rest)
      | _ => none
    else some (s.takeWhile (· ≠ space), s.dropWhile (· ≠ space))

/-- Reads at most `n` fields, each behind a space. -/
def readFields (text : JsonText) : ℕ → Bytes → Option (List Field)
  | _, [] => some []
  | 0, _ :: _ => none
  | n + 1, _ :: s => do
    let key := s.takeWhile (· ≠ 0x3D)
    let (v, rest) ← readValue text ((s.dropWhile (· ≠ 0x3D)).drop 1)
    let fields ← readFields text n rest
    return (key, v) :: fields

/-- Skips a word and the space behind it. -/
def skipWord (s : Bytes) : Bytes := (s.dropWhile (· ≠ space)).drop 1

/-- The fields of a record in text mode: time, level and event come first. -/
def readRecord (text : JsonText) (written : Bytes) : Option (List Field) :=
  let body := written.dropLast
  readFields text body.length ((skipWord (skipWord body)).dropWhile (· ≠ space))

/-- The same key with the same value, up to the replacement of invalid UTF-8. -/
def SameField (field read : Field) : Prop :=
  read.1 = field.1 ∧ (read.2 = field.2 ∨ read.2 = Utf8.replaceInvalid field.2)

/-- The fields can be read back from what is written. -/
def ReadsBack (text : JsonText) (fields : List Field) (written : Bytes) : Prop :=
  ∃ read, readRecord text written = some read ∧ List.Forall₂ SameField fields read

/-- Neither the event nor a value that is written without quotes breaks the line or ends the C
string. -/
structure RawFits (event : Bytes) (fields : List Field) : Prop where
  event : 0 ∉ event
  values : ∀ field ∈ fields, needsQuotes field.2 = false → ∀ b ∈ field.2, Fits b

theorem fits_of_le {b : UInt8} (h : 0x20 ≤ b) : Fits b := by
  have hne : ∀ c : UInt8, c < 0x20 → b ≠ c := by
    intro c hc heq
    rw [heq] at h
    exact UInt8.not_lt.mpr h hc
  exact ⟨hne lf (by decide), hne cr (by decide), hne 0 (by decide)⟩

theorem fits_of_not_isSpace {b : UInt8} (h : isSpace b = false) (hnul : b ≠ 0) : Fits b := by
  refine ⟨?_, ?_, hnul⟩
  · intro heq
    rw [heq] at h
    cases h
  · intro heq
    rw [heq] at h
    cases h

theorem oneRecord_iff {record : Bytes} :
    OneRecord record (fputs (record ++ [lf])) ↔ ∀ b ∈ record, Fits b := by
  have hwhole : fputs (record ++ [lf]) = record ++ [lf] ↔ ∀ b ∈ record, b ≠ 0 := by
    rw [fputs, List.takeWhile_eq_self_iff]
    constructor
    · intro h b hb
      exact of_decide_eq_true (h b (List.mem_append_left _ hb))
    · intro h b hb
      rcases List.mem_append.mp hb with hb | hb
      · exact decide_eq_true (h b hb)
      · rw [List.mem_singleton.mp hb]
        decide
  constructor
  · intro h b hb
    obtain ⟨hlf, hcr⟩ := h.noBreak b hb
    exact ⟨hlf, hcr, hwhole.mp h.whole b hb⟩
  · intro h
    exact ⟨hwhole.mpr fun b hb => (h b hb).2.2, fun b hb => ⟨(h b hb).1, (h b hb).2.1⟩⟩

theorem StringBody.printable {s : Bytes} (h : StringBody s) : ∀ b ∈ s, 0x20 ≤ b := by
  induction h with
  | nil => simp
  | plain hb _ _ _ ih => exact List.forall_mem_cons.mpr ⟨hb, ih⟩
  | escape hb _ ih =>
    exact List.forall_mem_cons.mpr ⟨by decide, List.forall_mem_cons.mpr ⟨hb, ih⟩⟩

/-- An escaped quote does not end the string. -/
theorem splitString_append {s : Bytes} (h : StringBody s) (rest : Bytes) :
    splitString (s ++ quote :: rest) = some (s, rest) := by
  induction h with
  | nil =>
    rw [List.nil_append, splitString.eq_def]
    exact if_pos rfl
  | plain hb hquote hbackslash _ ih =>
    rw [List.cons_append, splitString.eq_def]
    simp only [if_neg hquote, if_neg hbackslash, ih, Option.map_some]
  | @escape b s hb _ ih =>
    have hne : backslash ≠ quote := by decide
    rw [List.cons_append, List.cons_append, splitString.eq_def]
    simp only [if_neg hne, if_true, ih, Option.map_some]

variable {text : JsonText} {dump : Json → Bytes}

namespace Prints
variable (h : Prints dump)
include h

theorem printable_string (v : Bytes) : ∀ b ∈ dump (.str v), 0x20 ≤ b := by
  obtain ⟨body, hdump, hbody⟩ := h.string v
  intro b hb
  rw [hdump] at hb
  rcases List.mem_cons.mp hb with rfl | hb
  · decide
  rcases List.mem_append.mp hb with hb | hb
  · exact hbody.printable b hb
  · rw [List.mem_singleton.mp hb]
    decide

/-- Between the strings of an object stand only braces, colons and commas. -/
theorem printable_object {fields : List (Bytes × Json)}
    (hfields : ∀ kv ∈ fields, ∃ v, kv.2 = .str v) : ∀ b ∈ dump (.obj fields), 0x20 ≤ b := by
  have hmember : ∀ kv ∈ fields, ∀ b ∈ dump (.str kv.1) ++ colon :: dump kv.2, 0x20 ≤ b := by
    intro kv hkv b hb
    obtain ⟨v, hv⟩ := hfields kv hkv
    rw [hv] at hb
    rcases List.mem_append.mp hb with hb | hb
    · exact h.printable_string _ b hb
    rcases List.mem_cons.mp hb with rfl | hb
    · decide
    · exact h.printable_string v b hb
  have hjoin : ∀ parts : List Bytes, (∀ part ∈ parts, ∀ b ∈ part, 0x20 ≤ b) →
      ∀ b ∈ (ascii ",").intercalate parts, 0x20 ≤ b := by
    intro parts hparts
    induction parts with
    | nil => simp
    | cons part parts ih =>
      have hrest := ih fun part' hpart' => hparts part' (List.mem_cons_of_mem _ hpart')
      have hpart := hparts part (List.mem_cons_self ..)
      cases parts with
      | nil =>
        rw [List.intercalate_singleton]
        exact hpart
      | cons part' parts =>
        rw [List.intercalate_cons_cons]
        intro b hb
        rcases List.mem_append.mp hb with hb | hb
        · rcases List.mem_append.mp hb with hb | hb
          · exact hpart b hb
          · rw [List.mem_singleton.mp hb]
            decide
        · exact hrest b hb
  intro b hb
  rw [h.object fields hfields] at hb
  rcases List.mem_append.mp hb with hb | hb
  · rcases List.mem_append.mp hb with hb | hb
    · rw [List.mem_singleton.mp hb]
      decide
    · refine hjoin _ (fun part hpart => ?_) b hb
      obtain ⟨kv, hkv, rfl⟩ := List.mem_map.mp hpart
      exact hmember kv hkv
  · rw [List.mem_singleton.mp hb]
    decide

end Prints

/-- An object that holds strings only. -/
def HoldsStrings (j : Json) : Prop := ∃ fields, j = .obj fields ∧ ∀ kv ∈ fields, ∃ v, kv.2 = .str v

theorem holdsStrings_set {j : Json} (hj : j = .null ∨ HoldsStrings j) (key v : Bytes) :
    HoldsStrings (j.set key (.str v)) := by
  rcases hj with rfl | ⟨fields, rfl, hfields⟩
  · refine ⟨_, rfl, fun kv hkv => ⟨v, ?_⟩⟩
    rw [List.mem_singleton.mp hkv]
  · refine ⟨_, rfl, fun kv hkv => ?_⟩
    rcases Json.mem_insert hkv with rfl | hkv
    · exact ⟨v, rfl⟩
    · exact hfields kv hkv

theorem holdsStrings_foldl {j : Json} (hj : HoldsStrings j) (fields : List Field) :
    HoldsStrings (fields.foldl (fun j field => j.set field.1 (.str field.2)) j) := by
  induction fields generalizing j with
  | nil => exact hj
  | cons field fields ih => exact ih (holdsStrings_set (Or.inr hj) field.1 field.2)

/-- A JSON line has no control characters at all. -/
theorem oneRecord_json (h : Prints dump) (now : Now) (lvl : Level) (event : Bytes)
    (fields : List Field) :
    OneRecord (jsonRecord dump now lvl event fields) (write dump true now lvl event fields) := by
  apply oneRecord_iff.mpr
  intro b hb
  have hts := holdsStrings_set (Or.inl rfl) (ascii "ts") (timestamp now)
  have hlevel := holdsStrings_set (Or.inr hts) (ascii "level") (levelName lvl)
  have hevent := holdsStrings_set (Or.inr hlevel) (ascii "event") event
  obtain ⟨members, hmembers, hstrings⟩ := holdsStrings_foldl hevent fields
  rw [jsonRecord, hmembers] at hb
  exact fits_of_le (h.printable_object hstrings b hb)

theorem lt_of_mem_timestamp {now : Now} {b : UInt8} (h : b ∈ timestamp now) : 0x20 < b := by
  have hpad : ∀ (n : ℤ) (k : ℕ), ∀ b ∈ (toDecimal n).leftpad k 0x30, 0x20 < b := by
    intro n k b hb
    rcases List.mem_append.mp hb with hb | hb
    · rw [(List.mem_replicate.mp hb).2]
      decide
    · exact UInt8.lt_of_lt_of_le (by decide) (of_mem_toDecimal hb).1
  rcases List.mem_append.mp h with h | h
  · exact now.printable b h
  rcases List.mem_cons.mp h with rfl | h
  · decide
  rcases List.mem_append.mp h with h | h
  · unfold printMillis at h
    split_ifs at h
    · rcases List.mem_cons.mp h with rfl | h
      · decide
      · exact hpad _ _ b h
    · exact hpad _ _ b h
  · rw [List.mem_singleton.mp h]
    decide

theorem lt_of_mem_levelName {lvl : Level} {b : UInt8}
    (h : b ∈ (levelName lvl).map (· - (0x61 - 0x41))) : 0x20 < b := by
  have hall : ∀ lvl, ((levelName lvl).map (· - (0x61 - 0x41))).all (0x20 < ·) = true := by
    intro lvl
    cases lvl <;> decide
  exact of_decide_eq_true (List.all_eq_true.mp (hall lvl) b h)

/-- A word before the fields: it has no spaces. -/
theorem skipWord_append {word rest : Bytes} (h : ∀ b ∈ word, b ≠ space) :
    skipWord (word ++ space :: rest) = rest := by
  rw [skipWord, dropWhile_append (fun b hb => decide_eq_true (h b hb))]
  · rfl
  · intro c hc
    cases hc
    rfl

theorem ne_space_of_lt {b : UInt8} (h : 0x20 < b) : b ≠ space := by
  intro heq
  rw [heq] at h
  exact UInt8.lt_irrefl _ h

theorem needsQuotes_eq_false_iff {v : Bytes} :
    needsQuotes v = false ↔ v ≠ [] ∧ ∀ b ∈ v, b ∉ ascii " \t\"=" := by
  simp [needsQuotes]

theorem ne_of_needsQuotes_eq_false {v : Bytes} (h : needsQuotes v = false) :
    v ≠ [] ∧ ∀ b ∈ v, b ≠ space ∧ b ≠ quote := by
  obtain ⟨hnonempty, hplain⟩ := needsQuotes_eq_false_iff.mp h
  have hspace : space ∈ ascii " \t\"=" := by decide
  have hquote : quote ∈ ascii " \t\"=" := by decide
  refine ⟨hnonempty, fun b hb => ⟨?_, ?_⟩⟩
  · intro heq
    rw [heq] at hb
    exact hplain space hb hspace
  · intro heq
    rw [heq] at hb
    exact hplain quote hb hquote

section Text
variable {now : Now} {lvl : Level} {event : Bytes} {fields : List Field}

theorem fits_textRecord_iff (h : Prints dump) (hevent : ∀ b ∈ event, isSpace b = false)
    (hkeys : ∀ field ∈ fields, PlainWord field.1) :
    (∀ b ∈ textRecord dump now lvl event fields, Fits b) ↔ RawFits event fields := by
  have hspace : Fits space := fits_of_le (by decide)
  have hhead : ∀ {b}, 0x20 < b → Fits b := fun hb => fits_of_le (UInt8.le_of_lt hb)
  constructor
  · intro hfits
    constructor
    case event =>
      intro hnul
      have hmem : 0 ∈ textRecord dump now lvl event fields := by
        simp [textRecord, hnul]
      exact (hfits 0 hmem).2.2 rfl
    case values =>
      intro field hfield hraw b hb
      apply hfits b
      refine List.mem_append_right _ (List.mem_flatMap.mpr ⟨field, hfield, ?_⟩)
      simp [fieldText, valueText, hraw, hb]
  · intro hraw
    have hevents : ∀ b ∈ event, Fits b := fun b hb =>
      fits_of_not_isSpace (hevent b hb) fun heq => hraw.event (heq ▸ hb)
    have hfield : ∀ field ∈ fields, ∀ b ∈ fieldText dump field, Fits b := by
      intro field hfield b hb
      rcases List.mem_cons.mp hb with rfl | hb
      · exact hspace
      rcases List.mem_append.mp hb with hb | hb
      · exact hhead ((hkeys field hfield).plain b hb).1
      rcases List.mem_cons.mp hb with rfl | hb
      · exact fits_of_le (by decide)
      unfold valueText at hb
      split_ifs at hb with hquotes
      · exact fits_of_le (h.printable_string _ b hb)
      · exact hraw.values field hfield (by simpa using hquotes) b hb
    intro b hb
    rcases List.mem_append.mp hb with hb | hb
    · rcases List.mem_append.mp hb with hb | hb
      · exact hhead (lt_of_mem_timestamp hb)
      rcases List.mem_cons.mp hb with rfl | hb
      · exact hspace
      rcases List.mem_append.mp hb with hb | hb
      · exact hhead (lt_of_mem_levelName hb)
      rcases List.mem_cons.mp hb with rfl | hb
      · exact hspace
      · exact hevents b hb
    · obtain ⟨field, hmem, hb⟩ := List.mem_flatMap.mp hb
      exact hfield field hmem b hb

/-- The field that is read: a value in quotes has its invalid UTF-8 replaced. -/
def readField (field : Field) : Field :=
  (field.1, if needsQuotes field.2 then Utf8.replaceInvalid field.2 else field.2)

theorem sameField_readField (field : Field) : SameField field (readField field) := by
  refine ⟨rfl, ?_⟩
  simp only [readField]
  split_ifs
  · exact Or.inr rfl
  · exact Or.inl rfl

/-- What follows a value starts with a space, if there is anything. -/
theorem head?_fields (fields : List Field) (c : UInt8)
    (hc : (fields.flatMap (fieldText dump)).head? = some c) : c = space := by
  cases fields with
  | nil => cases hc
  | cons field fields =>
    cases hc
    rfl

theorem readValue_append (h : Prints dump) {v rest : Bytes} (hv : Recovers text dump v)
    (hrest : ∀ c, rest.head? = some c → c = space) :
    readValue text (valueText dump v ++ rest) =
      some (if needsQuotes v then Utf8.replaceInvalid v else v, rest) := by
  unfold valueText
  split_ifs with hquotes
  · obtain ⟨body, hdump, hbody⟩ := h.string v
    have hparse : text.parse (quote :: (body ++ [quote])) =
        some (.str (Utf8.replaceInvalid v)) := by
      rw [← hdump]
      exact hv
    have hsplit : splitString ((body ++ [quote]) ++ rest) = some (body, rest) := by
      rw [List.append_assoc]
      exact splitString_append hbody rest
    rw [hdump, List.cons_append, readValue]
    simp only [if_true, hsplit, Option.bind_some, Option.bind_eq_bind, hparse]
  · obtain ⟨hnonempty, hplain⟩ := ne_of_needsQuotes_eq_false (by simpa using hquotes)
    obtain ⟨b, v', rfl⟩ := List.exists_cons_of_ne_nil hnonempty
    have hb := hplain b (List.mem_cons_self ..)
    have htest : ∀ c ∈ b :: v', decide (c ≠ space) = true := fun c hc =>
      decide_eq_true (hplain c hc).1
    have hstop : ∀ c, rest.head? = some c → decide (c ≠ space) = false := fun c hc =>
      decide_eq_false (not_not.mpr (hrest c hc))
    rw [List.cons_append, readValue]
    simp only [if_neg hb.2]
    rw [← List.cons_append, takeWhile_append htest hstop, dropWhile_append htest hstop]

theorem readFields_flatMap (h : Prints dump) (hkeys : ∀ field ∈ fields, PlainWord field.1)
    (hrecovers : ∀ field ∈ fields, Recovers text dump field.2) {n : ℕ} (hn : fields.length ≤ n) :
    readFields text n (fields.flatMap (fieldText dump)) = some (fields.map readField) := by
  induction fields generalizing n with
  | nil =>
    cases n <;> rfl
  | cons field fields ih =>
    obtain ⟨n, rfl⟩ : ∃ m, n = m + 1 := ⟨n - 1, by rw [List.length_cons] at hn; omega⟩
    have hlength : fields.length ≤ n := by simpa using hn
    have hrest := ih (fun f hf => hkeys f (List.mem_cons_of_mem _ hf))
      (fun f hf => hrecovers f (List.mem_cons_of_mem _ hf)) hlength
    have htest : ∀ c ∈ field.1, decide (c ≠ 0x3D) = true := fun c hc =>
      decide_eq_true ((hkeys field (List.mem_cons_self ..)).plain c hc).2.2
    have hstop : ∀ (s : Bytes) (c : UInt8), (0x3D :: s).head? = some c →
        decide (c ≠ 0x3D) = false := by
      intro s c hc
      cases hc
      rfl
    have hvalue := readValue_append h (hrecovers field (List.mem_cons_self ..))
      (@head?_fields dump fields)
    have hword : (field :: fields).flatMap (fieldText dump) = space :: (field.1 ++
        0x3D :: (valueText dump field.2 ++ fields.flatMap (fieldText dump))) := by
      simp [fieldText]
    rw [hword, readFields, takeWhile_append htest (hstop _), dropWhile_append htest (hstop _)]
    simp only [List.drop_one, List.tail_cons, hvalue, Option.bind_eq_bind, Option.bind_some, hrest]
    rfl

/-- Time, level and event are skipped, and the fields are read. -/
theorem readsBack_textRecord (h : Prints dump) (hevent : ∀ b ∈ event, isSpace b = false)
    (hkeys : ∀ field ∈ fields, PlainWord field.1)
    (hrecovers : ∀ field ∈ fields, Recovers text dump field.2) :
    ReadsBack text fields (textRecord dump now lvl event fields ++ [lf]) := by
  have hsplit : textRecord dump now lvl event fields = timestamp now ++ space ::
      ((levelName lvl).map (· - (0x61 - 0x41)) ++ space ::
        (event ++ fields.flatMap (fieldText dump))) := by
    simp [textRecord]
  have hevents : ∀ b ∈ event, decide (b ≠ space) = true := by
    intro b hb
    apply decide_eq_true
    intro heq
    have hspace := hevent b hb
    rw [heq] at hspace
    cases hspace
  have hstop : ∀ c, (fields.flatMap (fieldText dump)).head? = some c →
      decide (c ≠ space) = false := fun c hc =>
    decide_eq_false (not_not.mpr (head?_fields fields c hc))
  have hlength : fields.length ≤ (textRecord dump now lvl event fields).length := by
    have hfields : fields.length ≤ (fields.flatMap (fieldText dump)).length := by
      clear hkeys hrecovers hstop hsplit
      induction fields with
      | nil => exact Nat.le_refl 0
      | cons field fields ih =>
        rw [List.flatMap_cons, List.length_append, List.length_cons, fieldText, List.length_cons]
        omega
    rw [textRecord, List.length_append]
    omega
  refine ⟨fields.map readField, ?_, ?_⟩
  · rw [readRecord, List.dropLast_concat]
    have hskip : (skipWord (skipWord (textRecord dump now lvl event fields))).dropWhile
        (fun b => decide (b ≠ space)) = fields.flatMap (fieldText dump) := by
      rw [hsplit, skipWord_append fun b hb => ne_space_of_lt (lt_of_mem_timestamp hb),
        skipWord_append fun b hb => ne_space_of_lt (lt_of_mem_levelName hb),
        dropWhile_append hevents hstop]
    simp only [hskip]
    exact readFields_flatMap h hkeys hrecovers hlength
  · rw [List.forall₂_map_right_iff, List.forall₂_same]
    exact fun field _ => sameField_readField field

end Text

/-- In JSON mode a call always writes one record. In text mode it does, and the fields can be read
back, exactly when what it writes without quotes fits on a line. -/
theorem one_record_iff (h : Prints dump) (now : Now) (lvl : Level) {event : Bytes}
    (hevent : ∀ b ∈ event, isSpace b = false) {fields : List Field}
    (hkeys : ∀ field ∈ fields, PlainWord field.1)
    (hrecovers : ∀ field ∈ fields, Recovers text dump field.2) :
    OneRecord (jsonRecord dump now lvl event fields) (write dump true now lvl event fields) ∧
      (OneRecord (textRecord dump now lvl event fields) (write dump false now lvl event fields) ∧
          ReadsBack text fields (write dump false now lvl event fields) ↔
        RawFits event fields) := by
  have hiff : OneRecord (textRecord dump now lvl event fields)
      (write dump false now lvl event fields) ↔ RawFits event fields :=
    oneRecord_iff.trans (fits_textRecord_iff h hevent hkeys)
  refine ⟨oneRecord_json h now lvl event fields, ?_⟩
  constructor
  · exact fun hwrites => hiff.mp hwrites.1
  · intro hraw
    have hone := hiff.mpr hraw
    refine ⟨hone, ?_⟩
    rw [hone.whole]
    exact readsBack_textRecord h hevent hkeys hrecovers

def hexDigit (b : UInt8) : UInt8 := if b < 10 then 0x30 + b else 0x57 + b

/-- A byte in a JSON string. -/
def escapeByte (b : UInt8) : Bytes :=
  if b = quote ∨ b = backslash then [backslash, b]
  else if 0x20 ≤ b then [b]
  else ascii "\\u00" ++ [hexDigit (b / 16), hexDigit (b % 16)]

def printString (v : Bytes) : Bytes :=
  quote :: ((Utf8.replaceInvalid v).flatMap escapeByte ++ [quote])

/-- A printer of strings, and of objects of strings. -/
def dumpStrings : Json → Bytes
  | .str v => printString v
  | .obj fields => ascii "\x7b" ++ (ascii ",").intercalate
      (fields.map fun kv => printString kv.1 ++ colon :: match kv.2 with
        | .str v => printString v
        | _ => []) ++ ascii "\x7d"
  | _ => []

theorem hexDigit_plain {b : UInt8} (h : b < 16) :
    0x20 ≤ hexDigit b ∧ hexDigit b ≠ quote ∧ hexDigit b ≠ backslash := by
  unfold hexDigit quote backslash
  split_ifs <;> simp [UInt8.le_iff_toNat_le, UInt8.lt_iff_toNat_lt, ← UInt8.toNat_inj] at * <;>
    omega

theorem stringBody_flatMap (s : Bytes) : StringBody (s.flatMap escapeByte) := by
  induction s with
  | nil => exact .nil
  | cons b s ih =>
    rw [List.flatMap_cons, escapeByte]
    split_ifs with hescape hplain
    · refine .escape ?_ ih
      rcases hescape with rfl | rfl <;> decide
    · rw [not_or] at hescape
      exact .plain hplain hescape.1 hescape.2 ih
    · have hlt : b < 0x20 := UInt8.not_le.mp hplain
      have hhigh : b / 16 < 16 := by
        simp [UInt8.lt_iff_toNat_lt] at hlt ⊢
        omega
      have hlow : b % 16 < 16 := by
        simp [UInt8.lt_iff_toNat_lt]
        omega
      obtain ⟨hle, hquote, hbackslash⟩ := hexDigit_plain hhigh
      obtain ⟨hle', hquote', hbackslash'⟩ := hexDigit_plain hlow
      have hdigits := StringBody.plain hle hquote hbackslash (.plain hle' hquote' hbackslash' ih)
      have hzero : ∀ {t}, StringBody t → StringBody (0x30 :: t) := fun ht =>
        .plain (by decide) (by decide) (by decide) ht
      exact .escape (by decide) (hzero (hzero hdigits))

theorem prints_dumpStrings : Prints dumpStrings where
  string v := ⟨_, rfl, stringBody_flatMap _⟩
  object fields hfields := by
    rw [dumpStrings]
    congr 3
    apply List.map_congr_left
    intro kv hkv
    obtain ⟨v, hv⟩ := hfields kv hkv
    rw [hv]
    rfl

/-- A clock that stands still. -/
def Now.still : Now where
  date := ascii "2025-06-01T12:00:00"
  millis := 7
  printable b hb := by
    have hall : (ascii "2025-06-01T12:00:00").all (0x20 < ·) = true := by decide
    exact of_decide_eq_true (List.all_eq_true.mp hall b hb)

/-- The server sends a finish reason with a line break. -/
theorem one_record_split :
    let event := ascii "gemini.response"
    let fields : List Field := [(ascii "finish", ascii "STOP\nERROR")]
    ¬ OneRecord (textRecord dumpStrings .still .info event fields)
      (write dumpStrings false .still .info event fields) := by
  intro event fields h
  have hmem : lf ∈ textRecord dumpStrings .still .info event fields := by
    apply List.mem_append_right
    decide
  exact (h.noBreak lf hmem).1 rfl

/-- A value that is quoted, with a byte that is not UTF-8, and one that is not. -/
theorem one_record_quoted :
    let event := ascii "gemini.failure"
    let fields : List Field := [(ascii "error", ascii "no " ++ [0xFF]), (ascii "op", ascii "chat")]
    let text : JsonText := .known
      [(printString (ascii "no " ++ [0xFF]), .str (ascii "no " ++ Utf8.replacement)),
        (printString (ascii "chat"), .str (ascii "chat"))] []
    OneRecord (jsonRecord dumpStrings .still .error event fields)
        (write dumpStrings true .still .error event fields) ∧
      (OneRecord (textRecord dumpStrings .still .error event fields)
            (write dumpStrings false .still .error event fields) ∧
          ReadsBack text fields (write dumpStrings false .still .error event fields) ↔
        RawFits event fields) := by
  intro event fields text
  have hevent : ∀ b ∈ event, isSpace b = false := by
    have hall : event.all (fun b => !isSpace b) = true := by decide
    intro b hb
    simpa using List.all_eq_true.mp hall b hb
  have hword : ∀ key : Bytes, key ≠ [] →
      key.all (fun b => 0x20 < b && b ≠ quote && b ≠ 0x3D) = true → PlainWord key := by
    intro key hne hall
    refine ⟨hne, fun b hb => ?_⟩
    have hplain := List.all_eq_true.mp hall b hb
    simpa [and_assoc] using hplain
  have hkeys : ∀ field ∈ fields, PlainWord field.1 := by
    intro field hfield
    rcases List.mem_cons.mp hfield with rfl | hfield
    · exact hword _ (by decide) (by decide)
    · rw [List.mem_singleton.mp hfield]
      exact hword _ (by decide) (by decide)
  have hrecovers : ∀ field ∈ fields, Recovers text dumpStrings field.2 := by
    intro field hfield
    rcases List.mem_cons.mp hfield with rfl | hfield
    · rfl
    · rw [List.mem_singleton.mp hfield]
      rfl
  exact one_record_iff prints_dumpStrings .still .error hevent hkeys hrecovers

end GeminiCpp.Log
