import ShaderDialect.Proofs.Program.Structs
import ShaderDialect.ResourceTable.Signature

/-! Declarations that are compared by a text. The text spells out what counts of a set or a table
when it is declared again, with marks between its parts. Words have none of the marks in them, so
where all names are words, different contents have different texts. -/
namespace ShaderDialect
open List

namespace Text
variable {mark c : Char} {l : List (List Char)}

/-- A text is cut in one way only at the first mark. -/
theorem cut_inj {a b x y : List Char} (ha : mark ∉ a) (hb : mark ∉ b)
    (h : a ++ mark :: x = b ++ mark :: y) : a = b ∧ x = y := by
  have hcut {a x : List Char} (ha : mark ∉ a) : (a ++ mark :: x).takeWhile (· ≠ mark) = a := by
    rw [takeWhile_append_of_pos fun c hc => decide_eq_true (ne_of_mem_of_not_mem hc ha)]
    simp
  obtain rfl : a = b := by rw [← hcut ha, h, hcut hb]
  exact ⟨rfl, (List.cons.inj (append_cancel_left h)).2⟩

theorem intercalate_inj {l' : List (List Char)} (hl : l ≠ []) (hl' : l' ≠ [])
    (h : ∀ a ∈ l, mark ∉ a) (h' : ∀ a ∈ l', mark ∉ a)
    (he : [mark].intercalate l = [mark].intercalate l') : l = l' := by
  rw [← splitOn_intercalate mark h hl, he, splitOn_intercalate mark h' hl']

theorem mem_intercalate {sep : List Char} (h : c ∈ sep.intercalate l) :
    c ∈ sep ∨ ∃ a ∈ l, c ∈ a := by
  induction l with
  | nil => cases h
  | cons a l ih =>
    cases l with
    | nil => exact Or.inr ⟨a, mem_cons_self, by simpa using h⟩
    | cons b l =>
      rw [intercalate_cons_cons, mem_append, mem_append] at h
      rcases h with (h | h) | h
      · exact Or.inr ⟨a, mem_cons_self, h⟩
      · exact Or.inl h
      · exact (ih h).imp_right fun hl => hl.imp fun _ ha => ⟨mem_cons_of_mem a ha.1, ha.2⟩

theorem eq_nil_of_intercalate (h : [] ∉ l) (he : [mark].intercalate l = []) : l = [] := by
  cases l with
  | nil => rfl
  | cons a l =>
    cases l with
    | nil =>
      rw [intercalate_singleton] at he
      exact absurd (he ▸ mem_cons_self) h
    | cons b l => simp [intercalate_cons_cons] at he

theorem terminated_inj {l' : List (List Char)} (h : ∀ a ∈ l, mark ∉ a) (h' : ∀ a ∈ l', mark ∉ a)
    (he : l.flatMap (· ++ [mark]) = l'.flatMap (· ++ [mark])) : l = l' := by
  induction l generalizing l' with
  | nil =>
    cases l' with
    | nil => rfl
    | cons b l' => simp at he
  | cons a l ih =>
    cases l' with
    | nil => simp at he
    | cons b l' =>
      rw [forall_mem_cons] at h h'
      simp only [flatMap_cons, append_assoc, singleton_append] at he
      obtain ⟨rfl, hrest⟩ := cut_inj h.1 h'.1 he
      rw [ih h.2 h'.2 hrest]

/-- A name as sources spell it. -/
def IsWord (name : String) : Prop := ∀ c ∈ name.toList, Scan.isWordRest c = true

instance (name : String) : Decidable (IsWord name) := List.decidableBAll _ _

/-- The marks between the parts of a signature. -/
def marks : List Char := ['/', ';', '|']

def Unmarked (s : String) : Prop := ∀ c ∈ s.toList, c ∉ marks

instance (s : String) : Decidable (Unmarked s) := List.decidableBAll _ _

theorem unmarked_join {parts : List String} :
    Unmarked (String.join parts) ↔ ∀ s ∈ parts, Unmarked s := by
  simp only [Unmarked, String.toList_join, mem_flatMap]
  constructor
  · intro h s hs c hc
    exact h c ⟨s, hs, hc⟩
  · rintro h c ⟨s, hs, hc⟩
    exact h s hs c hc

theorem isWordRest_of_mem_marks (h : c ∈ marks) : Scan.isWordRest c = false := by
  simp only [marks, mem_cons, not_mem_nil, or_false] at h
  rcases h with rfl | rfl | rfl <;> rfl

theorem IsWord.unmarked {name : String} (h : IsWord name) : Unmarked name := by
  intro c hc hmark
  have hword := h c hc
  rw [isWordRest_of_mem_marks hmark] at hword
  cases hword

theorem isDigit_of_mem_repr {n : Nat} (h : c ∈ n.repr.toList) : c.isDigit = true :=
  Nat.isDigit_of_mem_toDigits (by decide) (Nat.le_refl 10) (Nat.toList_repr ▸ h)

theorem eq_of_toList_repr {n m : Nat} (h : n.repr.toList = m.repr.toList) : n = m := by
  rw [Nat.toList_repr, Nat.toList_repr] at h
  have hback := congrArg (Nat.ofDigitChars 10 · 0) h
  simpa only [Nat.ofDigitChars_toDigits (by decide : 1 < 10) (Nat.le_refl 10)] using hback

theorem unmarked_repr (n : Nat) : Unmarked n.repr := by
  refine IsWord.unmarked fun c hc => ?_
  simp [Scan.isWordRest, Char.isAlphanum, isDigit_of_mem_repr hc]

theorem notMem_repr (h : c.isDigit = false) (n : Nat) : c ∉ n.repr.toList :=
  fun hc => Bool.false_ne_true (h.symm.trans (isDigit_of_mem_repr hc))

theorem repr_cut (hc : c.isDigit = false) {n m : Nat} {x y : List Char}
    (h : n.repr.toList ++ c :: x = m.repr.toList ++ c :: y) : n = m ∧ x = y := by
  obtain ⟨hn, hrest⟩ := cut_inj (notMem_repr hc n) (notMem_repr hc m) h
  exact ⟨eq_of_toList_repr hn, hrest⟩

theorem toNat_lt_of_isWordRest (h : Scan.isWordRest c = true) : c.toNat < 128 := by
  simp only [Scan.isWordRest, Char.isAlphanum, Bool.or_eq_true, beq_iff_eq] at h
  rcases h with (h | h) | rfl
  · rcases (Bool.or_eq_true _ _).mp h with hupper | hlower
    · have hle : c.val ≤ 'Z'.val := (of_decide_eq_true hupper).2
      exact Nat.lt_of_le_of_lt (UInt32.le_iff_toNat_le.1 hle) (by decide)
    · have hle : c.val ≤ 'z'.val := of_decide_eq_true ((Bool.and_eq_true _ _).mp hlower).2
      exact Nat.lt_of_le_of_lt (UInt32.le_iff_toNat_le.1 hle) (by decide)
  · have hle : c.val ≤ '9'.val := of_decide_eq_true ((Bool.and_eq_true _ _).mp h).2
    exact Nat.lt_of_le_of_lt (UInt32.le_iff_toNat_le.1 hle) (by decide)
  · decide

theorem escapeDiagnostic_of_isWordRest (h : Scan.isWordRest c = true) :
    escapeDiagnostic c = [c] := by
  have hall : ∀ n < 128, Scan.isWordRest (Char.ofNat n) = true →
      escapeDiagnostic (Char.ofNat n) = [Char.ofNat n] := by decide +kernel
  have hc := hall c.toNat (toNat_lt_of_isWordRest h)
  rw [Char.ofNat_toNat] at hc
  exact hc h

theorem IsWord.quoteDiagnostic {name : String} (h : IsWord name) :
    quoteDiagnostic name = String.join ["\"", name, "\""] := by
  have hname : name.toList.flatMap escapeDiagnostic = name.toList := by
    rw [flatMap_congr fun c hc => escapeDiagnostic_of_isWordRest (h c hc), flatMap_singleton']
  rw [Text.quoteDiagnostic, hname, String.ofList_toList]
  rfl

end Text

open Text

namespace Scalar

theorem unmarked_label (s : Scalar) : Unmarked s.label := by cases s <;> decide

theorem comma_notMem_label (s : Scalar) : ',' ∉ s.label.toList := by cases s <;> decide

theorem label_inj {s s' : Scalar} (h : s.label = s'.label) : s = s' := by
  cases s <;> cases s' <;> simp_all [label]

end Scalar

namespace ValueType
variable {t t' : ValueType}

def Worded : ValueType → Prop
  | struct name => IsWord name
  | _ => True

instance (t : ValueType) : Decidable t.Worded := by
  cases t <;> (unfold Worded; infer_instance)

theorem unmarked_signature (h : t.Worded) : Unmarked t.signature := by
  cases t with
  | void =>
    simp only [signature]
    decide
  | scalar s =>
    simp only [signature, unmarked_join, forall_mem_cons, s.unmarked_label]
    decide
  | vector s n =>
    simp only [signature, unmarked_join, forall_mem_cons, s.unmarked_label, unmarked_repr]
    decide
  | matrix s c r =>
    simp only [signature, unmarked_join, forall_mem_cons, s.unmarked_label, unmarked_repr]
    decide
  | struct name =>
    have hquoted : Unmarked (quoteDiagnostic name) := by
      rw [IsWord.quoteDiagnostic h, unmarked_join]
      simp only [forall_mem_cons, IsWord.unmarked h]
      decide
    simp only [signature, unmarked_join, forall_mem_cons, hquoted]
    decide

theorem signature_inj (h : t.Worded) (h' : t'.Worded) (he : t.signature = t'.signature) :
    t = t' := by
  rw [← String.toList_inj] at he
  cases t with
  | void =>
    cases t' with
    | void => rfl
    | _ => simp [signature] at he
  | scalar s =>
    cases t' with
    | scalar s' =>
      have hs : s.label.toList = s'.label.toList := by simpa [signature] using he
      rw [Scalar.label_inj (String.toList_inj.1 hs)]
    | _ => simp [signature] at he
  | vector s n =>
    cases t' with
    | vector s' n' =>
      have hparts : s.label.toList ++ ',' :: ' ' :: (n.repr.toList ++ [')']) =
          s'.label.toList ++ ',' :: ' ' :: (n'.repr.toList ++ [')']) := by
        simpa [signature] using he
      obtain ⟨hs, hn⟩ := cut_inj s.comma_notMem_label s'.comma_notMem_label hparts
      have hn := append_cancel_right (List.cons.inj hn).2
      rw [Scalar.label_inj (String.toList_inj.1 hs), eq_of_toList_repr hn]
    | _ => simp [signature] at he
  | matrix s c r =>
    cases t' with
    | matrix s' c' r' =>
      have hparts : s.label.toList ++ ',' :: (" columns: ".toList ++ (c.repr.toList ++
            ',' :: (" rows: ".toList ++ (r.repr.toList ++ " \x7d".toList)))) =
          s'.label.toList ++ ',' :: (" columns: ".toList ++ (c'.repr.toList ++
            ',' :: (" rows: ".toList ++ (r'.repr.toList ++ " \x7d".toList)))) := by
        simpa [signature] using he
      obtain ⟨hs, hrest⟩ := cut_inj s.comma_notMem_label s'.comma_notMem_label hparts
      obtain ⟨rfl, hrows⟩ := repr_cut rfl (append_cancel_left hrest)
      have hr := append_cancel_right (append_cancel_left hrows)
      rw [Scalar.label_inj (String.toList_inj.1 hs), eq_of_toList_repr hr]
    | _ => simp [signature] at he
  | struct name =>
    cases t' with
    | struct name' =>
      have hname : name.toList = name'.toList := by
        simpa [signature, IsWord.quoteDiagnostic h, IsWord.quoteDiagnostic h'] using he
      rw [String.toList_inj.1 hname]
    | _ => simp [signature] at he

end ValueType

theorem TextureShape.unmarked_name (s : TextureShape) : Unmarked s.name := by cases s <;> decide

theorem TextureShape.comma_notMem_name (s : TextureShape) : ',' ∉ s.name.toList := by
  cases s <;> decide

theorem TextureShape.name_inj {s s' : TextureShape} (h : s.name = s'.name) : s = s' := by
  cases s <;> cases s' <;> simp_all [name]

theorem Frequency.unmarked_name (f : Frequency) : Unmarked f.name := by cases f <;> decide

theorem Frequency.colon_notMem_name (f : Frequency) : ':' ∉ f.name.toList := by cases f <;> decide

theorem Frequency.name_inj {f f' : Frequency} (h : f.name = f'.name) : f = f' := by
  cases f <;> cases f' <;> simp_all [name]

namespace ResourceKind
variable {k k' : ResourceKind}

def Worded (k : ResourceKind) : Prop := ∀ e ∈ k.elem?, e.Worded

instance (k : ResourceKind) : Decidable k.Worded := by
  unfold Worded
  infer_instance

theorem unmarked_signature (h : k.Worded) : Unmarked k.signature := by
  cases k with
  | sampler comparison => cases comparison <;> (simp only [signature, unmarked_join]; decide)
  | texture s e | rwTexture s e =>
    have he := ValueType.unmarked_signature (h e rfl)
    simp only [signature, unmarked_join, forall_mem_cons, s.unmarked_name, he]
    decide
  | buffer e | rwBuffer e | constantBuffer e =>
    have he := ValueType.unmarked_signature (h e rfl)
    simp only [signature, unmarked_join, forall_mem_cons, he]
    decide

/-- The comma after a shape tells it from the elements. -/
theorem shape_elem_inj {s s' : TextureShape} {e e' : ValueType} (h : e.Worded) (h' : e'.Worded)
    (he : s.name.toList ++ ',' :: (" elem: ".toList ++ (e.signature.toList ++ " \x7d".toList)) =
      s'.name.toList ++ ',' :: (" elem: ".toList ++ (e'.signature.toList ++ " \x7d".toList))) :
    s = s' ∧ e = e' := by
  obtain ⟨hs, hrest⟩ := cut_inj s.comma_notMem_name s'.comma_notMem_name he
  have hsame := append_cancel_right (append_cancel_left hrest)
  exact ⟨TextureShape.name_inj (String.toList_inj.1 hs),
    ValueType.signature_inj h h' (String.toList_inj.1 hsame)⟩

theorem signature_inj (h : k.Worded) (h' : k'.Worded) (he : k.signature = k'.signature) :
    k = k' := by
  rw [← String.toList_inj] at he
  -- The signatures of different kinds differ in their first words already.
  cases k with
  | sampler comparison =>
    cases k' with
    | sampler comparison' => cases comparison <;> cases comparison' <;> simp [signature] at he ⊢
    | _ => simp [signature] at he
  | texture s e | rwTexture s e =>
    cases k' <;> simp [signature] at he
    next s' e' =>
      obtain ⟨rfl, rfl⟩ := shape_elem_inj (h e rfl) (h' e' rfl) (by simpa using he)
      rfl
  | buffer e | rwBuffer e | constantBuffer e =>
    cases k' <;> simp [signature] at he
    next e' => rw [ValueType.signature_inj (h e rfl) (h' e' rfl) (String.toList_inj.1 he)]

end ResourceKind

namespace DeclContents
variable {d d' : DeclContents}

structure Worded (d : DeclContents) : Prop where
  name : IsWord d.1
  kind : d.2.1.Worded

instance (d : DeclContents) : Decidable (Worded d) :=
  decidable_of_iff (IsWord d.1 ∧ d.2.1.Worded) ⟨fun h => ⟨h.1, h.2⟩, fun h => ⟨h.1, h.2⟩⟩

theorem unmarked_parts (h : Worded d) : ∀ s ∈ parts d, Unmarked s := by
  simp only [parts, forall_mem_cons, h.name.unmarked, ResourceKind.unmarked_signature h.kind,
    unmarked_repr, Frequency.unmarked_name, not_mem_nil, false_imp_iff, implies_true, and_self]

theorem parts_inj (h : Worded d) (h' : Worded d') (he : parts d = parts d') : d = d' := by
  obtain ⟨hname, hkind⟩ := h
  obtain ⟨hname', hkind'⟩ := h'
  obtain ⟨name, kind, length, frequency⟩ := d
  obtain ⟨name', kind', length', frequency'⟩ := d'
  simp only [parts, List.cons.injEq, and_true] at he
  obtain ⟨rfl, hk, hl, hf⟩ := he
  obtain rfl := ResourceKind.signature_inj hkind hkind' hk
  obtain rfl := eq_of_toList_repr (congrArg String.toList hl)
  obtain rfl := Frequency.name_inj hf
  rfl

theorem notMem_signature (h : Worded d) {mark : Char} (hm : mark ∈ marks) (hne : mark ≠ '/') :
    mark ∉ (signature d).toList := by
  intro hmem
  rw [signature, String.toList_intercalate] at hmem
  rcases mem_intercalate hmem with hsep | ⟨a, ha, hmark⟩
  · exact hne (mem_singleton.1 hsep)
  · obtain ⟨s, hs, rfl⟩ := mem_map.1 ha
    exact unmarked_parts h s hs mark hmark hm

theorem signature_inj (h : Worded d) (h' : Worded d') (he : signature d = signature d') :
    d = d' := by
  have hparts : ∀ {d : DeclContents}, Worded d → ∀ a ∈ (parts d).map String.toList, '/' ∉ a := by
    intro d h
    rw [forall_mem_map]
    intro s hs hmark
    exact unmarked_parts h s hs '/' hmark (by decide)
  rw [← String.toList_inj, signature, signature, String.toList_intercalate,
    String.toList_intercalate] at he
  have hsame := intercalate_inj (cons_ne_nil _ _) (cons_ne_nil _ _) (hparts h) (hparts h')
    he
  exact parts_inj h h' (map_injective_iff.2 (fun _ _ => String.toList_inj.1) hsame)

end DeclContents

theorem map_inj_of_forall {α β : Type} {P : α → Prop} {f : α → β}
    (hf : ∀ {a b}, P a → P b → f a = f b → a = b) {l l' : List α} (h : ∀ a ∈ l, P a)
    (h' : ∀ a ∈ l', P a) (he : l.map f = l'.map f) : l = l' := by
  induction l generalizing l' with
  | nil => exact (map_eq_nil_iff.1 he.symm).symm
  | cons a l ih =>
    cases l' with
    | nil => cases he
    | cons b l' =>
      rw [forall_mem_cons] at h h'
      obtain ⟨hhead, htail⟩ := List.cons.inj he
      rw [hf h.1 h'.1 hhead, ih h.2 h'.2 htail]

namespace SetContents
variable {s s' : SetContents}

def Worded : SetContents → Prop
  | listed _ decls => ∀ d ∈ decls, DeclContents.Worded d
  | included name => IsWord name

instance (s : SetContents) : Decidable s.Worded := by
  cases s <;> (unfold Worded; infer_instance)

theorem toList_signature_listed (f : Frequency) (decls : List DeclContents) :
    (listed f decls).signature.toList = f.name.toList ++
      ':' :: (decls.map fun d => (DeclContents.signature d).toList).flatMap (· ++ [';']) := by
  simp [signature, flatMap_assoc, flatMap_map]

theorem signature_ne_nil (s : SetContents) : s.signature.toList ≠ [] := by
  cases s <;> simp [signature]

theorem bar_notMem_signature (h : s.Worded) : '|' ∉ s.signature.toList := by
  intro hmem
  cases s with
  | listed f decls =>
    rw [toList_signature_listed, mem_append, mem_cons, mem_flatMap] at hmem
    rcases hmem with hmem | hmem | ⟨a, ha, hmem⟩
    · exact f.unmarked_name '|' hmem (by decide)
    · cases hmem
    · obtain ⟨d, hd, rfl⟩ := mem_map.1 ha
      rcases mem_append.1 hmem with hmem | hmem
      · exact DeclContents.notMem_signature (h d hd) (by decide) (by decide) hmem
      · cases mem_singleton.1 hmem
  | included name =>
    have hname : '|' ∈ name.toList := by simpa [signature] using hmem
    exact IsWord.unmarked h '|' hname (by decide)

theorem signature_listed_ne_included (f : Frequency) (decls : List DeclContents) (name : String) :
    (listed f decls).signature ≠ (included name).signature := by
  intro h
  rw [← String.toList_inj, toList_signature_listed] at h
  cases f <;> simp [signature, Frequency.name] at h

theorem signature_inj (h : s.Worded) (h' : s'.Worded) (he : s.signature = s'.signature) :
    s = s' := by
  cases s with
  | listed f decls =>
    cases s' with
    | listed f' decls' =>
      rw [← String.toList_inj, toList_signature_listed, toList_signature_listed] at he
      obtain ⟨hf, hdecls⟩ := cut_inj f.colon_notMem_name f'.colon_notMem_name he
      have hended : ∀ {decls : List DeclContents}, (∀ d ∈ decls, DeclContents.Worded d) →
          ∀ a ∈ decls.map fun d => (DeclContents.signature d).toList, ';' ∉ a := by
        intro decls h
        rw [forall_mem_map]
        intro d hd
        exact DeclContents.notMem_signature (h d hd) (by decide) (by decide)
      have hsame := terminated_inj (hended h) (hended h') hdecls
      rw [Frequency.name_inj (String.toList_inj.1 hf),
        map_inj_of_forall (fun h h' he => DeclContents.signature_inj h h' (String.toList_inj.1 he))
          h h' hsame]
    | included name' => exact absurd he (signature_listed_ne_included f decls name')
  | included name =>
    cases s' with
    | listed f' decls' => exact absurd he.symm (signature_listed_ne_included f' decls' name)
    | included name' =>
      have hname : name.toList = name'.toList := by
        rw [← String.toList_inj] at he
        simpa [signature] using he
      rw [String.toList_inj.1 hname]

end SetContents

namespace TableDecl

theorem toList_signature (t : TableDecl) :
    t.signature.toList = ['|'].intercalate (t.contents.map (·.signature.toList)) := by
  rw [signature, String.toList_intercalate, map_map]
  rfl

theorem contents_eq_nil {t : TableDecl} (h : t.signature.toList = []) : t.contents = [] := by
  rw [toList_signature] at h
  refine map_eq_nil_iff.1 (eq_nil_of_intercalate ?_ h)
  intro hmem
  obtain ⟨s, -, hs⟩ := mem_map.1 hmem
  exact s.signature_ne_nil hs

theorem contents_eq_of_signature {t t' : TableDecl} (h : ∀ s ∈ t.contents, s.Worded)
    (h' : ∀ s ∈ t'.contents, s.Worded) (he : t.signature = t'.signature) :
    t.contents = t'.contents := by
  by_cases hnil : t.contents = []
  · have hempty : t'.signature.toList = [] := by rw [← he, toList_signature, hnil]; rfl
    rw [hnil, contents_eq_nil hempty]
  by_cases hnil' : t'.contents = []
  · have hempty : t.signature.toList = [] := by rw [he, toList_signature, hnil']; rfl
    rw [hnil', contents_eq_nil hempty]
  have hbar : ∀ {l : List SetContents}, (∀ s ∈ l, s.Worded) →
      ∀ a ∈ l.map (·.signature.toList), '|' ∉ a := by
    intro l h
    rw [forall_mem_map]
    exact fun s hs => SetContents.bar_notMem_signature (h s hs)
  rw [← String.toList_inj, toList_signature, toList_signature] at he
  have hsame := intercalate_inj (mt map_eq_nil_iff.1 hnil) (mt map_eq_nil_iff.1 hnil')
    (hbar h) (hbar h') he
  exact map_inj_of_forall
    (fun h h' he => SetContents.signature_inj h h' (String.toList_inj.1 he)) h h' hsame

end TableDecl

namespace Item

/-- An item is one of a list, or stands in a branch or a block of one of them. -/
inductive Within (i : Item) : List Item → Prop
  | here {is} (h : i ∈ is) : Within i is
  | yes {is cond yes no loc} (h : branch cond yes no loc ∈ is) (hin : Within i yes) : Within i is
  | no {is cond yes no loc} (h : branch cond yes no loc ∈ is) (hin : Within i no) : Within i is
  | block {is stage features name items loc} (h : block stage features name items loc ∈ is)
      (hin : Within i items) : Within i is

variable {i : Item}

theorem Within.mono {is js : List Item} (h : Within i is) (hsub : is ⊆ js) : Within i js := by
  cases h with
  | here h => exact .here (hsub h)
  | yes h hin => exact .yes (hsub h) hin
  | no h hin => exact .no (hsub h) hin
  | block h hin => exact .block (hsub h) hin

mutual
theorem within_of_mem_nested (j : Item) (h : i ∈ j.nested) : Within i [j] := by
  cases j with
  | branch cond yes no loc =>
    rw [nested, mem_cons, mem_append] at h
    rcases h with rfl | h | h
    · exact .here mem_cons_self
    · exact .yes mem_cons_self (within_of_mem_nestedList yes h)
    · exact .no mem_cons_self (within_of_mem_nestedList no h)
  | block stage features name items loc =>
    rw [nested, mem_cons] at h
    rcases h with rfl | h
    · exact .here mem_cons_self
    · exact .block mem_cons_self (within_of_mem_nestedList items h)
  | _ => exact .here (by simpa [nested] using h)

theorem within_of_mem_nestedList (is : List Item) (h : i ∈ nestedList is) : Within i is := by
  cases is with
  | nil => cases h
  | cons j is =>
    rw [nestedList, mem_append] at h
    rcases h with h | h
    · exact (within_of_mem_nested j h).mono (by simp)
    · exact (within_of_mem_nestedList is h).mono (subset_cons_self j is)
end

theorem mem_nested_self (i : Item) : i ∈ i.nested := by cases i <;> simp [nested]

theorem nested_subset {j : Item} {is : List Item} (h : j ∈ is) : j.nested ⊆ nestedList is :=
  fun _ hin => mem_nestedList.2 ⟨j, h, hin⟩

theorem mem_nestedList_iff_within {is : List Item} : i ∈ nestedList is ↔ Within i is := by
  refine ⟨within_of_mem_nestedList is, fun h => ?_⟩
  induction h with
  | here h => exact nested_subset h i.mem_nested_self
  | yes h _ ih => exact nested_subset h (mem_cons_of_mem _ (mem_append_left _ ih))
  | no h _ ih => exact nested_subset h (mem_cons_of_mem _ (mem_append_right _ ih))
  | block h _ ih => exact nested_subset h (mem_cons_of_mem _ ih)

def table? : Item → Option TableDecl
  | table d => some d
  | _ => none

def sharedSet? : Item → Option SharedSet
  | sharedSet d => some d
  | _ => none

theorem table?_eq_some {d : TableDecl} : i.table? = some d ↔ i = .table d := by
  cases i <;> simp [table?]

theorem sharedSet?_eq_some {d : SharedSet} : i.sharedSet? = some d ↔ i = .sharedSet d := by
  cases i <;> simp [sharedSet?]

end Item

namespace Program
variable {p : Program}

def tableDecls (p : Program) : List TableDecl := p.allItems.filterMap Item.table?

def sharedDecls (p : Program) : List SharedSet := p.allItems.filterMap Item.sharedSet?

theorem mem_table? {d : TableDecl} :
    d ∈ p.allItems.filterMap Item.table? ↔ .table d ∈ p.allItems := by
  simp [mem_filterMap, Item.table?_eq_some]

theorem mem_sharedSet? {s : SharedSet} :
    s ∈ p.allItems.filterMap Item.sharedSet? ↔ .sharedSet s ∈ p.allItems := by
  simp [mem_filterMap, Item.sharedSet?_eq_some]

/-- Somewhere in the program, in whichever block or branch, there is a shared set. -/
def HasSharedSet (p : Program) (s : SharedSet) : Prop := Item.Within (.sharedSet s) p.items

/-- Somewhere in the program, in whichever block or branch, there is a table. -/
def HasTable (p : Program) (t : TableDecl) : Prop := Item.Within (.table t) p.items

theorem mem_sharedDecls_iff {s : SharedSet} : s ∈ p.sharedDecls ↔ p.HasSharedSet s := by
  rw [sharedDecls, mem_sharedSet?, allItems, Item.mem_nestedList_iff_within, HasSharedSet]

theorem mem_tableDecls_iff {t : TableDecl} : t ∈ p.tableDecls ↔ p.HasTable t := by
  rw [tableDecls, mem_table?, allItems, Item.mem_nestedList_iff_within, HasTable]

/-- All names in the sets and tables of a program are words, as they are in a source. -/
structure Worded (p : Program) : Prop where
  sharedSets : ∀ {s}, p.HasSharedSet s → s.set.contents.Worded
  tables : ∀ {t}, p.HasTable t → ∀ s ∈ t.contents, s.Worded

theorem worded_iff : p.Worded ↔ (∀ s ∈ p.sharedDecls, s.set.contents.Worded) ∧
    ∀ t ∈ p.tableDecls, ∀ s ∈ t.contents, s.Worded := by
  simp only [mem_sharedDecls_iff, mem_tableDecls_iff]
  exact ⟨fun h => ⟨fun _ => h.sharedSets, fun _ => h.tables⟩, fun h => ⟨h.1 _, h.2 _⟩⟩

instance (p : Program) : Decidable p.Worded := decidable_of_iff _ worded_iff.symm

theorem Worded.set_contents (h : p.Worded) {s s' : SharedSet} (hs : p.HasSharedSet s)
    (hs' : p.HasSharedSet s') (he : s.set.signature = s'.set.signature) :
    s.set.contents = s'.set.contents :=
  SetContents.signature_inj (h.sharedSets hs) (h.sharedSets hs') he

theorem Worded.table_contents (h : p.Worded) {t t' : TableDecl} (ht : p.HasTable t)
    (ht' : p.HasTable t') (he : t.signature = t'.signature) : t.contents = t'.contents :=
  TableDecl.contents_eq_of_signature (h.tables ht) (h.tables ht') he

end Program
end ShaderDialect
