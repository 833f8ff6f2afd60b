import Mathlib.Algebra.GroupWithZero.Nat
import ShaderDialect.Proofs.Json.Reading

/-! The compact form: its values are read back, so that different values are written differently,
and its length is the sum of the lengths of its parts and of what stands around them. -/
namespace ShaderDialect.JsonTree
open Text List

variable (vs : List Json)

theorem compactElements_eq : Json.compactElements vs = vs.map Json.compact := by
  induction vs with
  | nil => rfl
  | cons v vs ih => simp [Json.compactElements, ih]

variable (fields : List (String × Json))

theorem compactFields_eq :
    Json.compactFields fields = fields.map fun p => Json.quote p.1 ++ ":" ++ p.2.compact := by
  induction fields with
  | nil => rfl
  | cons p fields ih => simp [Json.compactFields, ih]

variable (key : String)

theorem utf8_compact_arr :
    utf8 (Json.arr vs).compact =
      '['.toUInt8 :: ([','.toUInt8].intercalate (vs.map fun v => utf8 v.compact) ++
        [']'.toUInt8]) := by
  have hopen : utf8 "[" = ['['.toUInt8] := by decide
  have hclose : utf8 "]" = [']'.toUInt8] := by decide
  have hcomma : utf8 "," = [','.toUInt8] := by decide
  simp [Json.compact, compactElements_eq, utf8_intercalate, hopen, hclose, hcomma,
    Function.comp_def]

theorem utf8_compact_obj :
    utf8 (Json.obj fields).compact =
      '\x7b'.toUInt8 :: ([','.toUInt8].intercalate
        (fields.map fun p => memberText [] p.1 (utf8 p.2.compact)) ++ ['\x7d'.toUInt8]) := by
  have hopen : utf8 "\x7b" = ['\x7b'.toUInt8] := by decide
  have hclose : utf8 "\x7d" = ['\x7d'.toUInt8] := by decide
  have hcomma : utf8 "," = [','.toUInt8] := by decide
  have hcolon : utf8 ":" = [':'.toUInt8] := by decide
  rw [Json.compact, compactFields_eq, utf8_append, utf8_append, utf8_intercalate,
    hopen, hclose, hcomma, map_map]
  simp only [Function.comp_def, utf8_member hcolon, cons_append, nil_append]

variable (s : String)

section Reading

theorem allBlank_nil : AllBlank [] := by
  intro b hb
  cases hb

theorem reads_compact_null : Reads (utf8 Json.null.compact) .null := by
  intro fuel rest hf
  have htext : utf8 Json.null.compact = "null".toList.map Char.toUInt8 := by decide
  rw [htext] at hf ⊢
  obtain _ | fuel := fuel
  · simp at hf
  rfl

theorem reads_compact_bool (b : Bool) : Reads (utf8 (Json.bool b).compact) (.bool b) := by
  intro fuel rest hf
  cases b with
  | true =>
    have htext : utf8 (Json.bool true).compact = "true".toList.map Char.toUInt8 := by decide
    rw [htext] at hf ⊢
    obtain _ | fuel := fuel
    · simp at hf
    rfl
  | false =>
    have htext : utf8 (Json.bool false).compact = "false".toList.map Char.toUInt8 := by decide
    rw [htext] at hf ⊢
    obtain _ | fuel := fuel
    · simp at hf
    rfl

theorem reads_compact_str : Reads (utf8 (Json.str s).compact) (.str (raw s)) :=
  reads_str 0 s

variable {α : Type} {json : α → Json} {tree : α → JsonTree} {xs : List α}

theorem reads_compact_arr (h : ∀ x ∈ xs, Reads (utf8 (json x).compact) (tree x)) :
    Reads (utf8 (Json.arr (xs.map json)).compact) (.arr (xs.map tree)) := by
  rw [utf8_compact_arr, map_map]
  by_cases hne : xs = []
  · subst hne
    exact reads_emptyBrackets
  · exact reads_brackets allBlank_nil allBlank_nil hne h

theorem reads_compact_obj (key : α → String)
    (h : ∀ x ∈ xs, Reads (utf8 (json x).compact) (tree x)) :
    Reads (utf8 (Json.obj (xs.map fun x => (key x, json x))).compact)
      (.obj (xs.map fun x => (raw (key x), tree x))) := by
  rw [utf8_compact_obj, map_map]
  by_cases hne : xs = []
  · subst hne
    exact reads_emptyBraces
  · exact reads_braces allBlank_nil allBlank_nil allBlank_nil key hne h

end Reading

variable {v v' : Json}

section Values

inductive NumberFree : Json → Prop
  | null : NumberFree .null
  | bool (b : Bool) : NumberFree (.bool b)
  | str (s : String) : NumberFree (.str s)
  | arr {vs : List Json} (h : ∀ v ∈ vs, NumberFree v) : NumberFree (.arr vs)
  | obj {fields : List (String × Json)} (h : ∀ p ∈ fields, NumberFree p.2) :
      NumberFree (.obj fields)

mutual
def ofValue : Json → JsonTree
  | .null => .null
  | .bool b => .bool b
  | .nat n => .number (Text.utf8 (toString n))
  | .str s => .str (raw s)
  | .arr vs => .arr (ofElements vs)
  | .obj fields => .obj (ofFields fields)

def ofElements : List Json → List JsonTree
  | [] => []
  | v :: vs => ofValue v :: ofElements vs

def ofFields : List (String × Json) → List (List UInt8 × JsonTree)
  | [] => []
  | (key, v) :: rest => (raw key, ofValue v) :: ofFields rest
end

theorem ofElements_eq : ofElements vs = vs.map ofValue := by
  induction vs with
  | nil => rfl
  | cons v vs ih => rw [ofElements, ih, map_cons]

theorem ofFields_eq : ofFields fields = fields.map fun p => (raw p.1, ofValue p.2) := by
  induction fields with
  | nil => rfl
  | cons p fields ih => rw [ofFields, ih, map_cons]

theorem NumberFree.reads (h : NumberFree v) : Reads (utf8 v.compact) (ofValue v) := by
  induction h with
  | null => exact reads_compact_null
  | bool b => exact reads_compact_bool b
  | str s => exact reads_compact_str s
  | @arr vs _ ih =>
    have hread : Reads (utf8 (Json.arr (vs.map id)).compact) (.arr (vs.map ofValue)) :=
      reads_compact_arr ih
    rwa [map_id, ← ofElements_eq] at hread
  | @obj fields _ ih =>
    have hread := reads_compact_obj Prod.fst ih
    rwa [map_id', ← ofFields_eq] at hread

theorem raw_inj {s s' : String} (h : raw s = raw s') : s = s' := by
  have hs := decode?_raw s
  rw [h, decode?_raw] at hs
  exact (Option.some.inj hs).symm

theorem eq_of_map_eq {α β : Type} {f : α → β} {xs ys : List α}
    (h : ∀ x ∈ xs, ∀ y ∈ ys, f x = f y → x = y) (he : xs.map f = ys.map f) : xs = ys := by
  induction xs generalizing ys with
  | nil => rw [map_nil, eq_comm, map_eq_nil_iff] at he; rw [he]
  | cons x xs ih =>
    obtain ⟨y, ys, rfl, hy, hys⟩ := map_eq_cons_iff.1 he.symm
    rw [h x mem_cons_self y mem_cons_self hy.symm,
      ih (fun a ha b hb => h a (.tail x ha) b (.tail y hb)) hys.symm]

theorem NumberFree.ofValue_inj (h : NumberFree v) (h' : NumberFree v')
    (he : ofValue v = ofValue v') : v = v' := by
  induction h generalizing v' with
  | null =>
    cases h' with
    | null => rfl
    | _ => simp [ofValue] at he
  | bool b =>
    cases h' with
    | bool b' => rw [ofValue, ofValue, JsonTree.bool.injEq] at he; rw [he]
    | _ => simp [ofValue] at he
  | str s =>
    cases h' with
    | str s' => rw [ofValue, ofValue, JsonTree.str.injEq] at he; rw [raw_inj he]
    | _ => simp [ofValue] at he
  | arr _ ih =>
    cases h' with
    | arr h' =>
      rw [ofValue, ofValue, JsonTree.arr.injEq, ofElements_eq, ofElements_eq] at he
      rw [eq_of_map_eq (fun v hv v' hv' => ih v hv (h' v' hv')) he]
    | _ => simp [ofValue] at he
  | obj _ ih =>
    cases h' with
    | obj h' =>
      rw [ofValue, ofValue, JsonTree.obj.injEq, ofFields_eq, ofFields_eq] at he
      refine congrArg Json.obj (eq_of_map_eq (fun p hp p' hp' hpair => ?_) he)
      obtain ⟨hkey, hvalue⟩ := Prod.mk.inj hpair
      exact Prod.ext (raw_inj hkey) (ih p hp (h' p' hp') hvalue)
    | _ => simp [ofValue] at he

theorem NumberFree.compact_inj (h : NumberFree v) (h' : NumberFree v')
    (he : v.compact = v'.compact) : v = v' := by
  have hread := read?_of_reads h.reads
  rw [he, read?_of_reads h'.reads] at hread
  exact h.ofValue_inj h' (Option.some.inj hread).symm

end Values

section Lengths

theorem length_intercalate {α : Type} (sep : α) (parts : List (List α)) :
    ([sep].intercalate parts).length = (parts.map List.length).sum + (parts.length - 1) := by
  induction parts with
  | nil => rfl
  | cons part parts ih =>
    cases parts with
    | nil => simp
    | cons next parts =>
      simp only [intercalate_cons_cons, length_append, ih, map_cons, sum_cons,
        length_cons, length_nil]
      omega

theorem length_compact_str : (utf8 (Json.str s).compact).length = (raw s).length + 2 := by
  rw [Json.compact, utf8_quote, length_cons, length_append, length_singleton]

theorem length_compact_arr :
    (utf8 (Json.arr vs).compact).length =
      (vs.map fun v => (utf8 v.compact).length).sum + (vs.length - 1) + 2 := by
  rw [utf8_compact_arr, length_cons, length_append, length_intercalate, map_map,
    length_map, length_singleton]
  rfl

theorem length_memberText (text : List UInt8) :
    (memberText [] key text).length = (raw key).length + text.length + 3 := by
  simp only [memberText, length_cons, length_append, nil_append]
  omega

theorem length_compact_obj :
    (utf8 (Json.obj fields).compact).length =
      (fields.map fun p => (raw p.1).length + (utf8 p.2.compact).length + 3).sum +
        (fields.length - 1) + 2 := by
  rw [utf8_compact_obj, length_cons, length_append, length_intercalate, map_map,
    length_map, length_singleton]
  simp only [Function.comp_def, length_memberText]

end Lengths

end ShaderDialect.JsonTree
