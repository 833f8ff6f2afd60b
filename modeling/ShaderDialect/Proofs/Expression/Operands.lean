import ShaderDialect.Proofs.Emit.Respelling
import ShaderDialect.Proofs.Expression.Intrinsics
import ShaderDialect.Proofs.Msl.Scope
import ShaderDialect.Proofs.Token.Printing

/-! Names and numbers as operands: whatever a target writes for one of them, it is one operand that
needs no parentheses. -/
namespace ShaderDialect

open Expression
open Scan (tokens? Shown)

namespace Expression
variable {t : Token} {x y : String} {isType : String → Bool} {l : Expression}

theorem spells_of_shown (h : Shown t) : Spells t.text (atom t) := by
  have htokens : tokens? (t.text.toList ++ []) = (tokens? []).map (t :: ·) :=
    Scan.tokens?_text_append h (by simp)
  simpa [Spells, Expression.tokens] using htokens

theorem reads_atom (h : Shown t) (ht : isAtom t) : Reads isType t.text (atom t) :=
  ⟨spells_of_shown h, ht⟩

theorem isDigit_of_shown (h : Shown (.word x)) : ∀ c ∈ x.toList.head?, c.isDigit = false := by
  obtain ⟨c, cs, hx, -, htoken⟩ := h
  have hx' : x.toList = c :: cs := hx
  rw [hx']
  rintro _ ⟨⟩
  have hint : Scan.int (c :: cs) = none := by
    unfold Scan.token at htoken
    split at htoken
    · cases htoken
    split at htoken
    · cases htoken
    split at htoken
    · cases htoken
    · next h => exact h
  exact Scan.isDigit_eq_false hint

theorem spells_member (hx : Shown (.word x)) (hy : Shown (.word y)) :
    Spells (x ++ "." ++ y) (member (atom (.word x)) (.delim .dot) y) := by
  have hpoint : tokens? ('.' :: y.toList) = (tokens? y.toList).map (.delim .dot :: ·) := by
    refine Scan.tokens?_of_token (by decide) rfl ?_
    unfold Scan.token
    rw [Scan.quoted_of_ne (by decide), Scan.float_of_point (isDigit_of_shown hy)]
    rfl
  have hfirst : tokens? (x.toList ++ '.' :: y.toList) =
      (tokens? ('.' :: y.toList)).map (.word x :: ·) :=
    Scan.tokens?_text_append hx (by rintro _ ⟨⟩; exact List.mem_cons_self)
  have hlast : tokens? y.toList = some [.word y] := spells_of_shown hy
  simp [Spells, hfirst, hpoint, hlast, Expression.tokens]

theorem spells_pointer (h : Spells ("srt_" ++ x ++ "." ++ y) l) :
    Spells ("(*srt_" ++ x ++ "." ++ y ++ ")") (group (unary "*" l)) := by
  have hstar : Spells ("*" ++ ("srt_" ++ x ++ "." ++ y)) (unary "*" l) := by
    have htoken : tokens? ('*' :: ("srt_" ++ x ++ "." ++ y).toList) =
        (tokens? ("srt_" ++ x ++ "." ++ y).toList).map (.op "*" :: ·) := by
      refine Scan.tokens?_of_token (by decide) ?_ ?_ <;> simp only [String.toList_append] <;> rfl
    have hl : tokens? ("srt_" ++ x ++ "." ++ y).toList = some l.tokens := h
    rw [Spells, String.toList_append]
    exact htoken.trans (by rw [hl]; rfl)
  refine hstar.parenthesized.of_eq ?_
  simp

end Expression

/-- A name of a value, or a whole number. -/
def Token.IsOperand : Token → Prop
  | .word x => Shown (.word x) ∧ ValueType.builtin? x = none ∧ x ≠ "discard" ∧ x ≠ "groupshared"
  | .int n => Shown (.int n)
  | _ => False

/-- An operand that is neither an element nor the result of a call. -/
def Expression.IsLeaf : Expression → Bool
  | .index _ _ | .call _ _ => false
  | e => e.level = 14

theorem Expression.level_leaf {e : Expression} (h : e.IsLeaf) : e.level = 14 := by
  cases e <;> simp_all [IsLeaf]

namespace Writer
variable {x : String} {t : Token} {isType : String → Bool}

theorem reads_resourceName (hx : Shown (.word x)) {r : TableResource} (hr : r.name = x)
    (target : Target) (option : Bool) (role : Role) (f : Frequency) :
    ∃ e, Reads isType ((target.language option).resourceName role f r) e ∧ e.IsLeaf := by
  subst hr
  have hplain : ∃ e, Reads isType r.name e ∧ e.IsLeaf := ⟨_, reads_atom hx rfl, rfl⟩
  cases target with
  | direct3d12 | vulkan => exact hplain
  | metal =>
    have hbuffer : Shown (.word ("srt_" ++ f.name)) := by
      cases f <;> exact ⟨_, _, rfl, by decide, rfl⟩
    have hmember := spells_member hbuffer hx
    simp only [Target.language, Msl.language, Msl.resourceName]
    split
    · split
      · exact ⟨_, ⟨spells_pointer hmember, rfl⟩, rfl⟩
      · exact ⟨_, ⟨hmember, rfl⟩, rfl⟩
    · exact hplain

theorem reads_respell (hx : Shown (.word x)) (hdiscard : x ≠ "discard") (hgroup : x ≠ "groupshared")
    (target : Target) : ∃ e, Reads isType (target.respell x) e ∧ e.IsLeaf := by
  rcases target.respell_cases x with ⟨-, h⟩ | ⟨hreserved, h⟩ | h
  · rw [h]
    exact ⟨_, reads_atom hx rfl, rfl⟩
  · have hshown : ∀ target : Target, ∀ x ∈ target.reserved, Scan.token (x ++ "_").toList =
        some (.word (x ++ "_"), []) ∧ ((x ++ "_").toList.head?.all fun c => !Text.isBlank c) ∧
        (Scan.commentStart (x ++ "_").toList).isSome = false := by
      intro target
      cases target <;> decide
    rw [h]
    exact ⟨_, ⟨.literal (hshown target x hreserved), rfl⟩, rfl⟩
  · have hkeywords : ∀ target : Target, ∀ k ∈ target.keywords,
        k.1 = "discard" ∨ k.1 = "groupshared" := by
      intro target
      cases target <;> decide
    exact absurd (hkeywords target _ h) (by simp [hdiscard, hgroup])

/-- A name or a number is written as one operand. -/
theorem reads_operand (u : ShaderUnit) (option : Bool) (role : Role) (ht : t.IsOperand) :
    ∃ text e, Writer.token ⟨u.target.language option, u, role⟩ false t = .word text ∧
      Reads isType text e ∧ e.IsLeaf := by
  cases t with
  | word x =>
    obtain ⟨hshown, hbuiltin, hdiscard, hgroup⟩ := ht
    cases hresource : u.resource? x with
    | some y =>
      obtain ⟨f, r⟩ := y
      obtain ⟨-, -, -, hname⟩ := ShaderUnit.mem_of_resource? hresource
      obtain ⟨e, he⟩ := reads_resourceName hshown hname u.target option role f
      exact ⟨_, e, by simp only [token, word, hresource, Bool.false_eq_true, if_false], he⟩
    | none =>
      have hrespell : (u.target.language option).respell x = u.target.respell x := by
        cases u.target <;> rfl
      obtain ⟨e, he⟩ := reads_respell hshown hdiscard hgroup u.target
      refine ⟨_, e, ?_, he⟩
      simp only [token, word, hresource, hbuiltin, hrespell, Bool.false_eq_true, if_false]
  | int n => exact ⟨n, _, rfl, reads_atom ht rfl, rfl⟩
  | _ => cases ht

end Writer
end ShaderDialect
