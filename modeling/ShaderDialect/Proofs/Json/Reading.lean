import ShaderDialect.Json
import ShaderDialect.Json.Tree

/-! What is written is read back: strings, and the arrays and objects made of them, with blanks
between their parts as the pretty form has them or without. -/
namespace ShaderDialect
open Text List

namespace Text
variable (s : String)

theorem utf8_eq : utf8 s = s.toList.flatMap String.utf8EncodeChar := by
  rw [utf8, String.toUTF8_eq_toByteArray, ← String.utf8Encode_toList, List.utf8Encode]
  simp

@[simp] theorem utf8_append (s' : String) : utf8 (s ++ s') = utf8 s ++ utf8 s' := by
  simp [utf8_eq]

theorem utf8_intercalate (sep : String) (parts : List String) :
    utf8 (sep.intercalate parts) = (utf8 sep).intercalate (parts.map utf8) := by
  induction parts with
  | nil => rfl
  | cons s parts ih =>
    cases parts with
    | nil => simp
    | cons s' parts => simp [String.intercalate_cons_cons, ih]

theorem ofUtf8?_utf8 : ofUtf8? (utf8 s) = some s := by
  have hb : (⟨(utf8 s).toArray⟩ : ByteArray) = s.toByteArray := by simp [utf8]
  simp [ofUtf8?, hb, String.fromUTF8?, String.fromUTF8, s.isValidUTF8]

theorem hexDigit_eq (n : Nat) : ∃ b, String.utf8EncodeChar (hexDigit n) = [b] ∧
    JsonTree.hexValue? b = some (n % 16) := by
  have hall : ∀ k < 16, String.utf8EncodeChar (Nat.digitChar k) = [(Nat.digitChar k).toUInt8] ∧
      JsonTree.hexValue? (Nat.digitChar k).toUInt8 = some k := by decide
  obtain ⟨hc, hv⟩ := hall (n % 16) (Nat.mod_lt n (by decide))
  exact ⟨_, hc, hv⟩

end Text

namespace JsonTree
variable (s : String) {bs : List UInt8} {f : Json → JsonTree} (indent : Nat) (c : Char)
  (rest : List UInt8) {b : UInt8} {fuel : Nat} {bytes : List UInt8}

/-- A byte that stands for itself in a string. -/
def IsPlain (b : UInt8) : Prop := b ≠ '"'.toUInt8 ∧ ¬ b < 0x20 ∧ b ≠ '\\'.toUInt8

theorem isPlain_ofNat {n : Nat} (h : n % 256 ≠ 34 ∧ 32 ≤ n % 256 ∧ n % 256 ≠ 92) :
    IsPlain (UInt8.ofNat n) := by
  simp only [IsPlain, ne_eq, ← UInt8.toNat_inj, UInt8.lt_iff_toNat_lt, Nat.not_lt,
    UInt8.toNat_ofNat']
  exact h

theorem isPlain_of_mem_utf8EncodeChar {c : Char} (hq : c ≠ '"') (hb : c ≠ '\\')
    (hc : ¬ c.toNat < 0x20) (h : b ∈ String.utf8EncodeChar c) : IsPlain b := by
  have hq' : c.val.toNat ≠ 34 := fun he => hq (Char.ext (UInt32.toNat_inj.1 he))
  have hb' : c.val.toNat ≠ 92 := fun he => hb (Char.ext (UInt32.toNat_inj.1 he))
  have hc' : ¬ c.val.toNat < 32 := hc
  simp only [String.utf8EncodeChar] at h
  split at h
  · obtain rfl := mem_singleton.1 h
    exact isPlain_ofNat (by omega)
  split at h
  · simp only [mem_cons, not_mem_nil, or_false] at h
    rcases h with rfl | rfl <;> exact isPlain_ofNat (by omega)
  split at h
  · simp only [mem_cons, not_mem_nil, or_false] at h
    rcases h with rfl | rfl | rfl <;> exact isPlain_ofNat (by omega)
  · simp only [mem_cons, not_mem_nil, or_false] at h
    rcases h with rfl | rfl | rfl | rfl <;> exact isPlain_ofNat (by omega)

theorem stringRest?_plain (h : ∀ b ∈ bs, IsPlain b) (rest : List UInt8) :
    stringRest? (bs ++ rest) = (stringRest? rest).map fun (s, r) => (bs ++ s, r) := by
  induction bs with
  | nil => simp
  | cons b bs ih =>
    obtain ⟨hq, hc, hb⟩ := h b mem_cons_self
    rw [cons_append, stringRest?.eq_def]
    simp [hq, hc, hb, ih fun b hb => h b (mem_cons_of_mem _ hb), Function.comp_def]

theorem unescape?_plain (h : ∀ b ∈ bs, IsPlain b) (rest : List UInt8) :
    unescape? (bs ++ rest) = (unescape? rest).map (bs ++ ·) := by
  induction bs with
  | nil => simp
  | cons b bs ih =>
    obtain ⟨-, -, hb⟩ := h b mem_cons_self
    rw [cons_append, unescape?.eq_def]
    simp [hb, ih fun b hb => h b (mem_cons_of_mem _ hb), Function.comp_def]

/-- The bytes of a character in a string. -/
def escapedBytes (c : Char) : List UInt8 := (Json.escape c).flatMap String.utf8EncodeChar

/-- How a character is written: by a letter after a backslash, by its number, or as it is. -/
theorem escapedBytes_cases :
    (∃ e b, escapedBytes c = ['\\'.toUInt8, e] ∧ escaped? e = some b ∧ e ≠ 'u'.toUInt8 ∧
      String.utf8EncodeChar c = [b]) ∨
    (∃ w x y z, escapedBytes c = ['\\'.toUInt8, 'u'.toUInt8, w, x, y, z] ∧
      unit? w x y z = some c.toNat ∧ c.toNat < 0x20) ∨
    escapedBytes c = String.utf8EncodeChar c ∧ ∀ b ∈ escapedBytes c, IsPlain b := by
  by_cases hq : c = '"'
  · subst hq
    exact .inl ⟨'"'.toUInt8, '"'.toUInt8, by decide, by decide, by decide, by decide⟩
  by_cases hb : c = '\\'
  · subst hb
    exact .inl ⟨'\\'.toUInt8, '\\'.toUInt8, by decide, by decide, by decide, by decide⟩
  by_cases hn : c = '\n'
  · subst hn
    exact .inl ⟨'n'.toUInt8, 0x0a, by decide, by decide, by decide, by decide⟩
  by_cases hr : c = '\r'
  · subst hr
    exact .inl ⟨'r'.toUInt8, 0x0d, by decide, by decide, by decide, by decide⟩
  by_cases ht : c = '\t'
  · subst ht
    exact .inl ⟨'t'.toUInt8, 0x09, by decide, by decide, by decide, by decide⟩
  by_cases h8 : c = '\x08'
  · subst h8
    exact .inl ⟨'b'.toUInt8, 0x08, by decide, by decide, by decide, by decide⟩
  by_cases hf : c = '\x0c'
  · subst hf
    exact .inl ⟨'f'.toUInt8, 0x0c, by decide, by decide, by decide, by decide⟩
  by_cases hc : c.toNat < 0x20
  · obtain ⟨w, hw, hw'⟩ := hexDigit_eq (c.toNat / 16 / 16 / 16)
    obtain ⟨x, hx, hx'⟩ := hexDigit_eq (c.toNat / 16 / 16)
    obtain ⟨y, hy, hy'⟩ := hexDigit_eq (c.toNat / 16)
    obtain ⟨z, hz, hz'⟩ := hexDigit_eq c.toNat
    refine .inr (.inl ⟨w, x, y, z, ?_, ?_, hc⟩)
    · simp [escapedBytes, Json.escape, hq, hb, hn, hr, ht, h8, hf, hc, hexDigits, hw, hx, hy, hz]
      rfl
    · simp only [unit?, hw', hx', hy', hz', Option.bind_eq_bind, Option.bind_some, Option.pure_def,
        Option.some.injEq]
      omega
  · have he : escapedBytes c = String.utf8EncodeChar c := by
      simp [escapedBytes, Json.escape, hq, hb, hn, hr, ht, h8, hf, hc]
    exact .inr (.inr ⟨he, fun b hm => isPlain_of_mem_utf8EncodeChar hq hb hc (he ▸ hm)⟩)

theorem stringRest?_escapedBytes :
    stringRest? (escapedBytes c ++ rest) =
      (stringRest? rest).map fun (s, r) => (escapedBytes c ++ s, r) := by
  have hquote : '\\'.toUInt8 ≠ '"'.toUInt8 := by decide
  have hcontrol : ¬ '\\'.toUInt8 < 0x20 := by decide
  rcases escapedBytes_cases c with ⟨e, b, hc, he, -, -⟩ | ⟨w, x, y, z, hc, hu, -⟩ | ⟨-, hp⟩
  · rw [hc, cons_append, stringRest?.eq_def]
    simp [he, hquote, hcontrol]
  · have hhex : isHex w ∧ isHex x ∧ isHex y ∧ isHex z := by
      simp only [unit?, Option.bind_eq_bind, Option.bind_eq_some_iff] at hu
      obtain ⟨_, hw, _, hx, _, hy, _, hz, -⟩ := hu
      simp [isHex, hw, hx, hy, hz]
    have hletter : escaped? 'u'.toUInt8 = none := by decide
    rw [hc]
    simp [stringRest?, hhex, hquote, hcontrol, hletter]
  · exact stringRest?_plain hp rest

theorem unescape?_escapedBytes :
    unescape? (escapedBytes c ++ rest) = (unescape? rest).map (String.utf8EncodeChar c ++ ·) := by
  rcases escapedBytes_cases c with ⟨e, b, hc, he, hu, hb⟩ | ⟨w, x, y, z, hc, hu, hlt⟩ | ⟨hc, hp⟩
  · rw [hc, hb, cons_append, unescape?.eq_def]
    cases hrest : unescape? rest <;> simp [he, hu, hrest]
  · have hlow : isLowSurrogate c.toNat = false := by
      simp [isLowSurrogate]
      omega
    have hhigh : isHighSurrogate c.toNat = false := by
      simp [isHighSurrogate]
      omega
    rw [hc]
    cases hrest : unescape? rest <;> simp [unescape?, hu, hlow, hhigh, utf8_eq, hrest]
  · rw [← hc]
    exact unescape?_plain hp rest

/-- What stands between the quotes of a text. -/
def raw (s : String) : List UInt8 := s.toList.flatMap escapedBytes

theorem stringRest?_raw : stringRest? (raw s ++ '"'.toUInt8 :: rest) = some (raw s, rest) := by
  rw [raw]
  induction s.toList with
  | nil => rw [flatMap_nil, nil_append, stringRest?.eq_def]; simp
  | cons c cs ih => simp [stringRest?_escapedBytes, ih]

theorem decode?_raw : decode? (raw s) = some s := by
  have hu : unescape? (raw s) = some (utf8 s) := by
    rw [raw, utf8_eq]
    induction s.toList with
    | nil => rfl
    | cons c cs ih => simp [unescape?_escapedBytes, ih]
  rw [decode?, hu, Option.bind_some, ofUtf8?_utf8]

theorem utf8_quote : utf8 (Json.quote s) = '"'.toUInt8 :: (raw s ++ ['"'.toUInt8]) := by
  have hq : utf8 "\"" = ['"'.toUInt8] := by decide
  simp [Json.quote_eq, hq, utf8_eq (String.ofList _), raw, flatMap_assoc]
  rfl

/-- Bytes that are read as a value, whatever follows. The fuel has to reach for their length. -/
def Reads (text : List UInt8) (v : JsonTree) : Prop :=
  ∀ fuel rest, text.length ≤ fuel → value? fuel (text ++ rest) = some (v, rest)

def AllBlank (bytes : List UInt8) : Prop := ∀ b ∈ bytes, isBlank b = true

theorem allBlank_newline : AllBlank (utf8 (Json.newline indent)) := by
  have hn : utf8 "\n" = ['\n'.toUInt8] := by decide
  have hs : String.utf8EncodeChar ' ' = [' '.toUInt8] := by decide
  intro b hb
  simp only [Json.newline, utf8_append, hn, utf8_eq (String.ofList _),
    String.toList_ofList, mem_append, mem_singleton, mem_flatMap,
    mem_replicate] at hb
  rcases hb with rfl | ⟨c, ⟨-, rfl⟩, hb⟩
  · decide
  · rw [hs, mem_singleton] at hb
    subst hb
    decide

section Blank
variable {blank : List UInt8} (h : AllBlank blank)
include h

theorem skipBlank_append (bytes : List UInt8) : skipBlank (blank ++ bytes) = skipBlank bytes :=
  dropWhile_append_of_pos h

theorem value?_append (fuel : Nat) (bytes : List UInt8) :
    value? fuel (blank ++ bytes) = value? fuel bytes := by
  cases fuel with
  | zero => simp [value?]
  | succ fuel => simp [value?, skipBlank_append h]

theorem expect?_append (b : UInt8) (bytes : List UInt8) :
    expect? b (blank ++ bytes) = expect? b bytes := by
  simp [expect?, skipBlank_append h]

end Blank

theorem expect?_cons {x : UInt8} (hx : isBlank x = false) (rest : List UInt8) :
    expect? b (x :: rest) = if x = b then some rest else none := by
  simp [expect?, skipBlank, hx]

theorem reads_str (s : String) : Reads (utf8 (Json.prettyAt indent (.str s))) (.str (raw s)) := by
  intro fuel rest hf
  rw [Json.prettyAt, utf8_quote] at hf ⊢
  obtain _ | fuel := fuel
  · simp at hf
  have hblank : isBlank '"'.toUInt8 = false := by decide
  simp [value?, skipBlank, hblank, stringRest?_raw]

section Parts
variable {α β : Type} {text : α → List UInt8} {tree : α → JsonTree} {before after gap : List UInt8}
  {list? : Nat → List UInt8 → Option (List β × List UInt8)} {value : α → β} {close : UInt8}
  {xs : List α} {fuel : Nat}

/-- What reads its parts one by one up to a closing byte reads them with a comma and blanks between
any two. -/
theorem list?_reads (ha : AllBlank after) (hclose : isBlank close = false)
    (hne : close ≠ ','.toUInt8) (rest : List UInt8) (hxs : xs ≠ [])
    (hlast : ∀ x ∈ xs, ∀ fuel bytes rest, (text x).length ≤ fuel →
      expect? ','.toUInt8 bytes = none → expect? close bytes = some rest →
      list? (fuel + 1) (before ++ (text x ++ bytes)) = some ([value x], rest))
    (hmore : ∀ x ∈ xs, ∀ fuel bytes more vs rest, (text x).length ≤ fuel →
      expect? ','.toUInt8 bytes = some more → list? fuel more = some (vs, rest) →
      list? (fuel + 1) (before ++ (text x ++ bytes)) = some (value x :: vs, rest))
    (hf : ((','.toUInt8 :: before).intercalate (xs.map text)).length < fuel) :
    list? fuel (before ++ ((','.toUInt8 :: before).intercalate (xs.map text) ++
      (after ++ close :: rest))) = some (xs.map value, rest) := by
  induction xs generalizing fuel with
  | nil => exact absurd rfl hxs
  | cons x xs ih =>
    obtain _ | fuel := fuel
    · omega
    cases xs with
    | nil =>
      rw [map_singleton, intercalate_singleton] at hf ⊢
      apply hlast x mem_cons_self fuel _ rest (by omega)
      · rw [expect?_append ha, expect?_cons hclose, if_neg hne]
      · rw [expect?_append ha, expect?_cons hclose, if_pos rfl]
    | cons y xs =>
      simp only [map_cons, intercalate_cons_cons, length_append, length_cons,
        append_assoc, cons_append] at hf ih ⊢
      apply hmore x mem_cons_self fuel _ _ _ rest (by omega)
      · rw [expect?_cons (by decide), if_pos rfl]
      · exact ih (cons_ne_nil y xs) (fun x hx => hlast x (mem_cons_of_mem _ hx))
          (fun x hx => hmore x (mem_cons_of_mem _ hx)) (by omega)

/-- Elements between brackets, a comma and a blank between any two. -/
theorem elements?_reads (hb : AllBlank before) (ha : AllBlank after) (rest : List UInt8)
    (hne : xs ≠ []) (h : ∀ x ∈ xs, Reads (text x) (tree x))
    (hf : ((','.toUInt8 :: before).intercalate (xs.map text)).length < fuel) :
    elements? fuel (before ++ ((','.toUInt8 :: before).intercalate (xs.map text) ++
      (after ++ ']'.toUInt8 :: rest))) = some (xs.map tree, rest) := by
  refine list?_reads ha (by decide) (by decide) rest hne ?_ ?_ hf
  · intro x hx fuel bytes rest hlen hcomma hclose
    rw [elements?, value?_append hb, h x hx fuel bytes hlen]
    simp [hcomma, hclose]
  · intro x hx fuel bytes more vs rest hlen hcomma hread
    rw [elements?, value?_append hb, h x hx fuel bytes hlen]
    simp [hcomma, hread]

/-- A member of an object as it is written, with blanks behind the colon. -/
def memberText (gap : List UInt8) (key : String) (text : List UInt8) : List UInt8 :=
  '"'.toUInt8 :: (raw key ++ '"'.toUInt8 :: ':'.toUInt8 :: (gap ++ text))

theorem quoted?_memberText (gap : List UInt8) (key : String) (text rest : List UInt8) :
    quoted? (skipBlank (memberText gap key text ++ rest)) =
      some (raw key, ':'.toUInt8 :: (gap ++ (text ++ rest))) := by
  have hblank : isBlank '"'.toUInt8 = false := by decide
  simp [memberText, skipBlank, hblank, quoted?, stringRest?_raw]

theorem members?_reads (hb : AllBlank before) (ha : AllBlank after) (hg : AllBlank gap)
    (rest : List UInt8) (key : α → String) (hne : xs ≠ []) (h : ∀ x ∈ xs, Reads (text x) (tree x))
    (hf : ((','.toUInt8 :: before).intercalate
      (xs.map fun x => memberText gap (key x) (text x))).length < fuel) :
    members? fuel (before ++ ((','.toUInt8 :: before).intercalate
      (xs.map fun x => memberText gap (key x) (text x)) ++ (after ++ '\x7d'.toUInt8 :: rest))) =
        some (xs.map fun x => (raw (key x), tree x), rest) := by
  have hcolon : ∀ bytes, expect? ':'.toUInt8 (':'.toUInt8 :: bytes) = some bytes := by
    intro bytes
    rw [expect?_cons (by decide), if_pos rfl]
  have hvalue : ∀ x ∈ xs, ∀ fuel bytes, (memberText gap (key x) (text x)).length ≤ fuel →
      value? fuel (gap ++ (text x ++ bytes)) = some (tree x, bytes) := by
    intro x hx fuel bytes hlen
    simp only [memberText, length_cons, length_append] at hlen
    rw [value?_append hg, h x hx fuel bytes (by omega)]
  refine list?_reads ha (by decide) (by decide) rest hne ?_ ?_ hf
  · intro x hx fuel bytes rest hlen hcomma hclose
    rw [members?, skipBlank_append hb, quoted?_memberText]
    simp [hcolon, hvalue x hx fuel bytes hlen, hcomma, hclose]
  · intro x hx fuel bytes more vs rest hlen hcomma hread
    rw [members?, skipBlank_append hb, quoted?_memberText]
    simp [hcolon, hvalue x hx fuel bytes hlen, hcomma, hread]

/-- A list of parts does not start with a byte that none of them starts with. -/
theorem expect?_parts (close : UInt8) (text : α → List UInt8) (hb : AllBlank before) (hne : xs ≠ [])
    (h : ∀ x ∈ xs, ∀ bytes, expect? close (text x ++ bytes) = none) (bytes : List UInt8) :
    expect? close (before ++ ((','.toUInt8 :: before).intercalate (xs.map text) ++ bytes)) =
      none := by
  rw [expect?_append hb]
  cases xs with
  | nil => exact absurd rfl hne
  | cons x xs =>
    have hfirst := h x mem_cons_self
    cases xs with
    | nil => simpa using hfirst bytes
    | cons y xs =>
      rw [map_cons, map_cons, intercalate_cons_cons, append_assoc,
        append_assoc]
      exact hfirst _

end Parts

theorem utf8_bracket (left right : String) {elements : List String} (hne : elements ≠ []) :
    utf8 (Json.bracket indent left right elements) = utf8 left ++
      (utf8 (Json.newline (indent + 1)) ++
        ((','.toUInt8 :: utf8 (Json.newline (indent + 1))).intercalate
          (elements.map utf8) ++ (utf8 (Json.newline indent) ++ utf8 right))) := by
  have hcomma : utf8 "," = [','.toUInt8] := by decide
  simp [Json.bracket, hne, utf8_intercalate, hcomma]

theorem prettyElements_eq (vs : List Json) :
    Json.prettyElements indent vs = vs.map (Json.prettyAt indent) := by
  induction vs with
  | nil => rfl
  | cons v vs ih => simp [Json.prettyElements, ih]

theorem prettyFields_eq (fields : List (String × Json)) :
    Json.prettyFields indent fields =
      fields.map fun p => Json.quote p.1 ++ ": " ++ Json.prettyAt indent p.2 := by
  induction fields with
  | nil => rfl
  | cons p fields ih => simp [Json.prettyFields, ih]

theorem expect?_eq_none {r : JsonTree × List UInt8} (h : value? fuel bytes = some r) :
    expect? ']'.toUInt8 bytes = none := by
  cases fuel with
  | zero => simp [value?] at h
  | succ fuel =>
    rw [value?] at h
    cases hs : skipBlank bytes with
    | nil => simp [expect?, hs]
    | cons b bs =>
      by_cases hb : b = ']'.toUInt8
      · subst hb
        have hdigit : isDigit ']'.toUInt8 = false := by decide
        have hsign : ']'.toUInt8 ≠ '-'.toUInt8 := by decide
        have hnumber : number? (']'.toUInt8 :: bs) = none := by
          simp [number?, integer?, digits?, hsign, hdigit]
        have hstart : ∀ c ∈ ['"', '[', '\x7b', 'n', 't', 'f'], ']'.toUInt8 ≠ c.toUInt8 := by
          simp only [forall_mem_cons, not_mem_nil, false_implies, implies_true, and_true]
          decide
        simp only [forall_mem_cons] at hstart
        simp [hs, hstart, hnumber] at h
      · simp [expect?, hs, hb]

theorem value?_bracket {rest : List UInt8} {vs : List JsonTree}
    (hopen : expect? ']'.toUInt8 bytes = none) (h : elements? fuel bytes = some (vs, rest)) :
    value? (fuel + 1) ('['.toUInt8 :: bytes) = some (.arr vs, rest) := by
  have hblank : isBlank '['.toUInt8 = false := by decide
  have hquote : '['.toUInt8 ≠ '"'.toUInt8 := by decide
  simp [value?, skipBlank, hblank, hquote, hopen, h]

theorem value?_brace {rest : List UInt8} {ms : List (List UInt8 × JsonTree)}
    (hopen : expect? '\x7d'.toUInt8 bytes = none) (h : members? fuel bytes = some (ms, rest)) :
    value? (fuel + 1) ('\x7b'.toUInt8 :: bytes) = some (.obj ms, rest) := by
  have hblank : isBlank '\x7b'.toUInt8 = false := by decide
  have hquote : '\x7b'.toUInt8 ≠ '"'.toUInt8 := by decide
  have hbracket : '\x7b'.toUInt8 ≠ '['.toUInt8 := by decide
  simp [value?, skipBlank, hblank, hquote, hbracket, hopen, h]

theorem reads_emptyBrackets : Reads ['['.toUInt8, ']'.toUInt8] (.arr []) := by
  intro fuel rest hf
  have hblank : isBlank '['.toUInt8 = false := by decide
  have hquote : '['.toUInt8 ≠ '"'.toUInt8 := by decide
  have hend : expect? ']'.toUInt8 (']'.toUInt8 :: rest) = some rest := by
    rw [expect?_cons (by decide), if_pos rfl]
  obtain _ | fuel := fuel
  · simp at hf
  simp [value?, skipBlank, hblank, hquote, hend]

theorem reads_emptyBraces : Reads ['\x7b'.toUInt8, '\x7d'.toUInt8] (.obj []) := by
  intro fuel rest hf
  have hblank : isBlank '\x7b'.toUInt8 = false := by decide
  have hquote : '\x7b'.toUInt8 ≠ '"'.toUInt8 := by decide
  have hbracket : '\x7b'.toUInt8 ≠ '['.toUInt8 := by decide
  have hend : expect? '\x7d'.toUInt8 ('\x7d'.toUInt8 :: rest) = some rest := by
    rw [expect?_cons (by decide), if_pos rfl]
  obtain _ | fuel := fuel
  · simp at hf
  simp [value?, skipBlank, hblank, hquote, hbracket, hend]

section Wholes
variable {α : Type} {text : α → List UInt8} {tree : α → JsonTree} {before after gap : List UInt8}
  {xs : List α}

theorem reads_brackets (hb : AllBlank before) (ha : AllBlank after) (hne : xs ≠ [])
    (h : ∀ x ∈ xs, Reads (text x) (tree x)) :
    Reads ('['.toUInt8 :: (before ++ ((','.toUInt8 :: before).intercalate (xs.map text) ++
      (after ++ [']'.toUInt8])))) (.arr (xs.map tree)) := by
  intro fuel rest hf
  obtain _ | fuel := fuel
  · simp at hf
  simp only [length_append, length_cons, length_nil] at hf
  have hread := elements?_reads hb ha rest hne h (show _ < fuel by omega)
  have hopened := expect?_parts ']'.toUInt8 text hb hne fun x hx bytes =>
    expect?_eq_none (h x hx _ bytes (Nat.le_refl _))
  simp only [append_assoc, cons_append, nil_append]
  exact value?_bracket (hopened _) hread

theorem reads_braces (hb : AllBlank before) (ha : AllBlank after) (hg : AllBlank gap)
    (key : α → String) (hne : xs ≠ []) (h : ∀ x ∈ xs, Reads (text x) (tree x)) :
    Reads ('\x7b'.toUInt8 :: (before ++ ((','.toUInt8 :: before).intercalate
      (xs.map fun x => memberText gap (key x) (text x)) ++ (after ++ ['\x7d'.toUInt8]))))
      (.obj (xs.map fun x => (raw (key x), tree x))) := by
  intro fuel rest hf
  obtain _ | fuel := fuel
  · simp at hf
  simp only [length_append, length_cons, length_nil] at hf
  have hread := members?_reads hb ha hg rest key hne h (show _ < fuel by omega)
  have hopened := expect?_parts '\x7d'.toUInt8 (fun x => memberText gap (key x) (text x)) hb hne
    fun x _ bytes => by
      rw [memberText, cons_append, expect?_cons (by decide), if_neg (by decide)]
  simp only [append_assoc, cons_append, nil_append]
  exact value?_brace (hopened _) hread

end Wholes

theorem reads_arr {indent : Nat} {vs : List Json}
    (h : ∀ v ∈ vs, Reads (utf8 (Json.prettyAt (indent + 1) v)) (f v)) :
    Reads (utf8 (Json.prettyAt indent (.arr vs))) (.arr (vs.map f)) := by
  have hopen : utf8 "[" = ['['.toUInt8] := by decide
  have hclose : utf8 "]" = [']'.toUInt8] := by decide
  rw [Json.prettyAt, prettyElements_eq]
  cases vs with
  | nil =>
    simp only [map_nil, Json.bracket, isEmpty_nil, if_true, utf8_append, hopen, hclose]
    exact reads_emptyBrackets
  | cons v vs =>
    rw [utf8_bracket _ _ _ (by simp), hopen, hclose, map_map, Function.comp_def]
    exact reads_brackets (allBlank_newline (indent + 1)) (allBlank_newline indent)
      (cons_ne_nil v vs) h

theorem allBlank_space : AllBlank [' '.toUInt8] := by
  intro b hb
  rw [mem_singleton] at hb
  subst hb
  decide

theorem utf8_member {colon : String} {gap : List UInt8} (h : utf8 colon = ':'.toUInt8 :: gap)
    (key text : String) :
    utf8 (Json.quote key ++ colon ++ text) = memberText gap key (utf8 text) := by
  simp [utf8_quote, memberText, h]

theorem reads_obj {indent : Nat} {fields : List (String × Json)}
    (h : ∀ p ∈ fields, Reads (utf8 (Json.prettyAt (indent + 1) p.2)) (f p.2)) :
    Reads (utf8 (Json.prettyAt indent (.obj fields)))
      (.obj (fields.map fun p => (raw p.1, f p.2))) := by
  have hopen : utf8 "\x7b" = ['\x7b'.toUInt8] := by decide
  have hclose : utf8 "\x7d" = ['\x7d'.toUInt8] := by decide
  rw [Json.prettyAt, prettyFields_eq]
  cases fields with
  | nil =>
    simp only [map_nil, Json.bracket, isEmpty_nil, if_true, utf8_append, hopen, hclose]
    exact reads_emptyBraces
  | cons p fields =>
    rw [utf8_bracket _ _ _ (by simp), hopen, hclose, map_map, Function.comp_def]
    have hcolon : utf8 ": " = [':'.toUInt8, ' '.toUInt8] := by decide
    simp only [utf8_member hcolon]
    exact reads_braces (allBlank_newline (indent + 1)) (allBlank_newline indent) allBlank_space
      Prod.fst (cons_ne_nil p fields) h

theorem read?_of_reads {text : List UInt8} {v : JsonTree} (h : Reads text v) :
    read? text = some v := by
  have hv := h (2 * text.length + 2) [] (by omega)
  rw [append_nil] at hv
  simp [read?, hv, skipBlank]

theorem texts?_map {α : Type} (text : α → String) (xs : List α) :
    (arr (xs.map fun x => str (raw (text x)))).texts? = some (xs.map text) := by
  simp only [texts?, list?, Option.bind_some]
  induction xs with
  | nil => rfl
  | cons x xs ih => simp [text?, decode?_raw, ih]

end JsonTree
end ShaderDialect
